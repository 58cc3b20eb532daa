import EnumCover.Proofs.Program.IntegerForms

namespace EnumCover

namespace Literal

/-- Each separator stands before a digit, and behind a digit or the whole lead. -/
def Lead.SeparatorsFit (l : Lead) (cs : List Char) : Prop :=
  ∀ before after, cs = before ++ '_' :: after →
    (before = l.chars ∧ before ≠ [] ∨ ∃ d : Digit l.radix, before.getLast? = some d.char) ∧
    ∃ d : Digit l.radix, after.head? = some d.char

/-- A legal literal: no more than one separator in a place. -/
def IsLegalInteger (raw : String) : Prop :=
  ∃ s : IntegerSpelling, (∀ d ∈ s.digits, d.gap ≤ 1) ∧ raw.toList = s.chars

namespace SpacedDigit

variable {radix : Nat}

/-- A separator among digits stands before one of them, and behind another one if anything stands
before it. -/
theorem neighbours_of_separator (h : radix ≤ 16) {ds : List (SpacedDigit radix)}
    (hgap : ∀ d ∈ ds, d.gap ≤ 1) {before after : List Char}
    (hsplit : ds.flatMap chars = before ++ '_' :: after) :
    (before = [] ∨ ∃ d : Digit radix, before.getLast? = some d.char) ∧
      ∃ d : Digit radix, after.head? = some d.char := by
  induction ds generalizing before with
  | nil => exact absurd hsplit.symm (List.append_ne_nil_of_right_ne_nil _ (List.cons_ne_nil _ _))
  | cons d ds ih =>
    obtain ⟨hd, hds⟩ := List.forall_mem_cons.mp hgap
    rw [List.flatMap_cons, chars, List.append_assoc, List.singleton_append] at hsplit
    have hbehind {b : List Char} (hb : d.digit.char :: ds.flatMap chars = b ++ '_' :: after) :
        (∃ e : Digit radix, b.getLast? = some e.char) ∧
          ∃ e : Digit radix, after.head? = some e.char := by
      rcases List.cons_eq_append_iff.mp hb with ⟨-, hafter⟩ | ⟨b', rfl, hrest⟩
      · exact absurd (List.cons.inj hafter).1.symm (d.digit.char_ne h rfl)
      · obtain ⟨hbefore, hhead⟩ := ih hds hrest
        refine ⟨?_, hhead⟩
        rcases hbefore with rfl | ⟨e, he⟩
        · exact ⟨d.digit, rfl⟩
        · exact ⟨e, List.mem_getLast?_cons he⟩
    rcases Nat.le_one_iff_eq_zero_or_eq_one.mp hd with hzero | hone
    · rw [hzero] at hsplit
      exact (hbehind hsplit).imp .inr id
    · rw [hone] at hsplit
      rcases List.cons_eq_append_iff.mp hsplit with ⟨hbefore, hafter⟩ | ⟨b, rfl, hrest⟩
      · exact ⟨.inl hbefore, d.digit, by rw [(List.cons.inj hafter).2]; rfl⟩
      · obtain ⟨⟨e, he⟩, hhead⟩ := hbehind hrest
        exact ⟨.inr ⟨e, List.mem_getLast?_cons he⟩, hhead⟩

theorem exists_of_filter (h : radix ≤ 16) {ds : List (Digit radix)} {cs : List Char}
    (hdigits : cs.filter (· != '_') = ds.map Digit.char)
    (hfit : ∀ before after, cs = before ++ '_' :: after →
      ∃ d : Digit radix, after.head? = some d.char) :
    ∃ xs : List (SpacedDigit radix),
      (∀ x ∈ xs, x.gap ≤ 1) ∧ xs.map digit = ds ∧ xs.flatMap chars = cs := by
  have hnot (after : List Char) : ¬∃ d : Digit radix, ('_' :: after).head? = some d.char := by
    rintro ⟨d, hd⟩
    exact d.char_ne h rfl (Option.some.inj hd).symm
  induction ds generalizing cs with
  | nil =>
    rw [List.map_nil, List.filter_eq_nil_iff] at hdigits
    have hall : ∀ c ∈ cs, c = '_' := by simpa using hdigits
    match cs with
    | [] => exact ⟨[], nofun, rfl, rfl⟩
    | [c] =>
      obtain ⟨d, hd⟩ := hfit [] [] (by rw [hall c (by simp), List.nil_append])
      cases hd
    | c :: c' :: rest =>
      rw [hall c (by simp), hall c' (by simp)] at hfit
      exact absurd (hfit [] ('_' :: rest) rfl) (hnot rest)
  | cons d ds ih =>
    rw [List.map_cons, List.filter_eq_cons_iff] at hdigits
    obtain ⟨gap, rest, rfl, hgap, -, hrest⟩ := hdigits
    have hreplicate : gap = List.replicate gap.length '_' := by
      rw [List.eq_replicate_iff]
      exact ⟨rfl, fun c hc => by simpa using hgap c hc⟩
    obtain ⟨xs, hle, hmap, hchars⟩ := ih hrest fun before after hafter =>
      hfit (gap ++ d.char :: before) after (by rw [hafter, List.append_assoc, List.cons_append])
    have hone : gap.length ≤ 1 := by
      apply Nat.le_of_not_lt
      intro hlt
      -- behind the first of two separators there is no digit
      obtain ⟨k, hk⟩ := Nat.exists_eq_add_of_le' hlt
      rw [hreplicate, hk] at hfit
      exact hnot _ (hfit [] _ rfl)
    refine ⟨⟨gap.length, d⟩ :: xs, List.forall_mem_cons.mpr ⟨hone, hle⟩, ?_, ?_⟩
    · rw [List.map_cons, hmap]
    · rw [List.flatMap_cons, hchars, chars, ← hreplicate, List.append_assoc, List.singleton_append]

end SpacedDigit

namespace Lead

variable {l : Lead} {cs rest : List Char}

theorem eq_of_radix_of_chars {m : Lead} (hradix : l.radix = m.radix) (hchars : l.chars = m.chars) :
    l = m := by
  cases l <;> cases m <;> simp_all [radix, chars]

theorem eq_decimal_of_chars (h : l.chars = []) : l = decimal := by
  cases l with
  | decimal => rfl
  | zero => cases h
  | letter c radix hc => cases h

theorem exists_append_of_separator {before after : List Char}
    (h : l.chars ++ rest = before ++ '_' :: after) :
    ∃ tail, before = l.chars ++ tail ∧ rest = tail ++ '_' :: after := by
  rcases List.append_eq_append_iff.mp h with hbehind | ⟨inner, hlead, hinner⟩
  · exact hbehind
  · cases inner with
    | nil => exact ⟨[], by rw [hlead, List.append_nil, List.append_nil], hinner.symm⟩
    | cons c inner =>
      have hmem : '_' ∈ l.chars := by
        rw [hlead, (List.cons.inj hinner).1]
        exact List.mem_append_right _ List.mem_cons_self
      exact absurd hmem l.separator_notMem_chars

theorem SeparatorsFit.head?_ne (hfit : l.SeparatorsFit cs) : cs.head? ≠ some '_' := by
  intro hhead
  obtain ⟨after, rfl⟩ := List.head?_eq_some_iff.mp hhead
  rcases (hfit [] after rfl).1 with ⟨-, hne⟩ | ⟨d, hd⟩
  · exact hne rfl
  · cases hd

theorem SeparatorsFit.exists_append (hfit : l.SeparatorsFit cs)
    (h : cs.filter (· != '_') = l.chars ++ rest) :
    ∃ tail, cs = l.chars ++ tail ∧ tail.filter (· != '_') = rest := by
  have hzero {rest : List Char} (h : cs.filter (· != '_') = '0' :: rest) :
      ∃ tail, cs = '0' :: tail ∧ tail.filter (· != '_') = rest := by
    obtain ⟨gap, tail, rfl, hgap, -, htail⟩ := List.filter_eq_cons_iff.mp h
    cases gap with
    | nil => exact ⟨tail, rfl, htail⟩
    | cons c gap =>
      have hc : c = '_' := by simpa using hgap c List.mem_cons_self
      exact absurd (congrArg some hc) hfit.head?_ne
  cases l with
  | decimal => exact ⟨cs, rfl, h⟩
  | zero => exact hzero h
  | letter c radix hc =>
    obtain ⟨behind, rfl, hbehind⟩ := hzero h
    obtain ⟨gap, tail, rfl, hgap, -, htail⟩ := List.filter_eq_cons_iff.mp hbehind
    rcases List.eq_nil_or_concat gap with rfl | ⟨gap, e, rfl⟩
    · exact ⟨tail, rfl, htail⟩
    · -- a separator would stand before the letter, which is no digit of its own radix
      have he : e = '_' := by simpa using hgap e (by simp)
      have hnone : ∀ e ∈ radixLetters, digit? e.2 e.1 = none := by decide
      obtain ⟨d, hd⟩ := (hfit ('0' :: gap) (c :: tail) (by simp [he])).2
      exact absurd (Option.some.inj hd).symm (d.char_ne (radix_le (letter c radix hc)) (hnone _ hc))

end Lead

theorem IntegerSpelling.separatorsFit (s : IntegerSpelling) (hgap : ∀ d ∈ s.digits, d.gap ≤ 1) :
    s.lead.SeparatorsFit s.chars := by
  intro before after hsplit
  obtain ⟨tail, rfl, htail⟩ := Lead.exists_append_of_separator hsplit
  obtain ⟨hbefore, hafter⟩ := SpacedDigit.neighbours_of_separator s.lead.radix_le hgap htail
  refine ⟨?_, hafter⟩
  rcases hbefore with rfl | ⟨d, hd⟩
  · left
    rw [List.append_nil]
    refine ⟨rfl, fun hnil => ?_⟩
    -- a decimal starts with a digit
    have hzero := (s.decimal (Lead.eq_decimal_of_chars hnil)).1
    rw [digits, List.flatMap_cons, SpacedDigit.chars, hzero] at htail
    exact s.first.digit.char_ne s.lead.radix_le rfl (List.cons.inj htail).1
  · right
    exact ⟨d, by rw [List.getLast?_append, hd]; rfl⟩

theorem IntegerParts.lead_eq_of_isSpelledBy {p q : IntegerParts} {raw : String}
    (hp : p.IsSpelledBy raw) (hq : q.IsSpelledBy raw) : p.lead = q.lead ∧ p.body = q.body := by
  have hchars : p.lead.chars ++ p.body = q.lead.chars ++ q.body := hp.symm.trans hq
  have hread := congrArg radixAndDigits hchars
  rw [Lead.radixAndDigits_append p.introduces, Lead.radixAndDigits_append q.introduces] at hread
  obtain ⟨hradix, hbody⟩ := Prod.mk.inj hread
  rw [hbody] at hchars
  exact ⟨Lead.eq_of_radix_of_chars hradix (List.append_cancel_right hchars), hbody⟩

theorem IntegerParts.sign_eq_none (p : IntegerParts) {radix : Nat} (h : radix ≤ 16)
    {d : Digit radix} {cs : List Char} (hbody : p.body = d.char :: cs) : p.sign = none := by
  unfold body at hbody
  match hsign : p.sign with
  | none => rfl
  | some true =>
    rw [hsign] at hbody
    exact absurd (List.cons.inj hbody).1.symm (d.char_ne h rfl)
  | some false =>
    rw [hsign] at hbody
    exact absurd (List.cons.inj hbody).1.symm (d.char_ne h rfl)

section Legality

variable {p : IntegerParts} {raw : String}

theorem isLegalInteger_of_separatorsFit (h : p.IsSpelledBy raw) (hsign : p.sign = none)
    (hfit : p.lead.SeparatorsFit raw.toList) : IsLegalInteger raw := by
  obtain ⟨tail, hraw, htail⟩ := hfit.exists_append h
  have hdigits : tail.filter (· != '_') = (p.first :: p.rest).map Digit.char := by
    rw [htail, IntegerParts.body, hsign]
    rfl
  obtain ⟨xs, hgap, hmap, hchars⟩ := SpacedDigit.exists_of_filter p.lead.radix_le hdigits
    fun before after hafter =>
      (hfit (p.lead.chars ++ before) after (by rw [hraw, hafter, List.append_assoc])).2
  obtain ⟨first, rest, rfl, hfirst, hrest⟩ := List.map_eq_cons_iff.mp hmap
  have hdecimal : p.lead = .decimal → first.gap = 0 ∧ (first.digit.value.1 = 0 → rest = []) := by
    intro hlead
    constructor
    · apply Nat.eq_zero_of_not_pos
      intro hpos
      obtain ⟨k, hk⟩ := Nat.exists_eq_succ_of_ne_zero hpos.ne'
      apply hfit.head?_ne
      rw [hraw, hlead, ← hchars, List.flatMap_cons, SpacedDigit.chars, hk]
      rfl
    · intro hvalue
      rw [hfirst] at hvalue
      rw [p.no_zero hlead hsign hvalue] at hrest
      exact List.map_eq_nil_iff.mp hrest
  exact ⟨⟨p.lead, first, rest, hdecimal⟩, hgap, by rw [hraw, ← hchars]; rfl⟩

theorem isLegalInteger_iff (h : p.IsSpelledBy raw) :
    IsLegalInteger raw ↔ p.sign = none ∧ p.lead.SeparatorsFit raw.toList := by
  constructor
  · rintro ⟨s, hgap, hraw⟩
    obtain ⟨hlead, hbody⟩ := IntegerParts.lead_eq_of_isSpelledBy h (s.isSpelledBy_parts hraw)
    refine ⟨p.sign_eq_none s.lead.radix_le hbody, ?_⟩
    rw [hlead, hraw]
    exact s.separatorsFit hgap
  · rintro ⟨hsign, hfit⟩
    exact isLegalInteger_of_separatorsFit h hsign hfit

end Legality

end Literal

/-- Whatever is evaluated is a lead, perhaps a sign, and digits, with separators in any place, and
has the value of that. It is a legal literal exactly if there is no sign and each separator stands
between two digits or between the lead and a digit, and its value is then not negative. -/
theorem evaluated_integer_legal_iff (raw : String) (v : Int)
    (h : Literal.value? .int raw = some (.int v)) :
    ∃ p : Literal.IntegerParts, p.IsSpelledBy raw ∧ p.value = v ∧
      (Literal.IsLegalInteger raw ↔ p.sign = none ∧ p.lead.SeparatorsFit raw.toList) ∧
      (Literal.IsLegalInteger raw → 0 ≤ v) := by
  obtain ⟨n, hinteger, hn⟩ := Option.map_eq_some_iff.mp h
  obtain rfl := Value.int.inj hn
  obtain ⟨p, hspelled, rfl⟩ := Literal.IntegerParts.exists_of_integer? hinteger
  have hiff := Literal.isLegalInteger_iff hspelled
  refine ⟨p, hspelled, rfl, hiff, ?_⟩
  intro hlegal
  rw [Literal.IntegerParts.value, (hiff.mp hlegal).1]
  exact Int.natCast_nonneg _

/-- A separator between the lead and a digit. -/
theorem evaluated_integer_legal_iff_hexadecimal :
    Literal.value? .int "0x_1F" = some (.int 31) ∧ Literal.IsLegalInteger "0x_1F" ∧
      ∃ p : Literal.IntegerParts, p.IsSpelledBy "0x_1F" ∧ p.value = 31 ∧ p.sign = none ∧
        p.lead.SeparatorsFit "0x_1F".toList := by
  let s : Literal.IntegerSpelling :=
    ⟨.letter 'x' 16 (by decide), ⟨1, (1 : Fin 16), '1', .inl rfl⟩,
      [⟨0, (15 : Fin 16), 'F', by decide⟩], nofun⟩
  have hvalue : Literal.value? .int "0x_1F" = some (.int 31) := by decide +kernel
  have hlegal : Literal.IsLegalInteger "0x_1F" := ⟨s, by decide, rfl⟩
  obtain ⟨p, hspelled, hp, hiff, -⟩ := evaluated_integer_legal_iff "0x_1F" 31 hvalue
  exact ⟨hvalue, hlegal, p, hspelled, hp, hiff.mp hlegal⟩

/-- A sign, a sign behind the lead, and a separator behind the last digit are let through. -/
theorem malformed_integers_evaluated :
    (Literal.value? .int "-5" = some (.int (-5)) ∧ ¬Literal.IsLegalInteger "-5") ∧
    (Literal.value? .int "0x-1F" = some (.int (-31)) ∧ ¬Literal.IsLegalInteger "0x-1F") ∧
    (Literal.value? .int "1_" = some (.int 1) ∧ ¬Literal.IsLegalInteger "1_") := by
  let minus : Literal.IntegerParts :=
    ⟨.decimal, some true, ⟨(5 : Fin 10), '5', .inl rfl⟩, [], nofun⟩
  let hexadecimal : Literal.IntegerParts :=
    ⟨.letter 'x' 16 (by decide), some true, ⟨(1 : Fin 16), '1', .inl rfl⟩,
      [⟨(15 : Fin 16), 'F', by decide⟩], nofun⟩
  let one : Literal.IntegerParts :=
    ⟨.decimal, none, ⟨(1 : Fin 10), '1', .inl rfl⟩, [], fun _ _ _ => rfl⟩
  refine ⟨⟨by decide +kernel, ?_⟩, ⟨by decide +kernel, ?_⟩, ⟨by decide +kernel, ?_⟩⟩
  · rw [Literal.isLegalInteger_iff (show minus.IsSpelledBy "-5" from rfl)]
    exact fun h => nomatch h.1
  · rw [Literal.isLegalInteger_iff (show hexadecimal.IsSpelledBy "0x-1F" from rfl)]
    exact fun h => nomatch h.1
  · rw [Literal.isLegalInteger_iff (show one.IsSpelledBy "1_" from rfl)]
    rintro ⟨-, hfit⟩
    obtain ⟨d, hd⟩ := (hfit ['1'] [] rfl).2
    cases hd

end EnumCover
