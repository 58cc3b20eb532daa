import EnumCover.Proofs.Json.Alike
import EnumCover.Proofs.Json.Tokens

namespace EnumCover

namespace Node

def Agrees (n m : Node) : Prop := Alike n m ∧ Alike m n

def AgreesMember (m m' : Key × Node) : Prop := m.1.text = m'.1.text ∧ Agrees m.2 m'.2

namespace Agrees

theorem array {l l' k k' : Nat} {xs ys : List Node} (h : List.Forall₂ Agrees xs ys) :
    Agrees (.array l xs (.closed k)) (.array l' ys (.closed k')) :=
  ⟨.array (h.imp fun _ _ h => h.1), .array (h.flip.imp fun _ _ h => h.2)⟩

theorem object {l l' k k' : Nat} {ms ms' : List (Key × Node)}
    (h : List.Forall₂ AgreesMember ms ms') :
    Agrees (.object l ms (.closed k)) (.object l' ms' (.closed k')) :=
  ⟨.of_members (h.imp fun _ _ h => ⟨h.1, h.2.1⟩) (.refl _),
    .of_members (h.flip.imp fun _ _ h => ⟨h.1.symm, h.2.2⟩) (.refl _)⟩

end Agrees

end Node

namespace Json

def Blanks.none : Blanks := ⟨[], by simp⟩

def Blanks.append (a b : Blanks) : Blanks :=
  ⟨a.1 ++ b.1, fun c hc => (List.mem_append.mp hc).elim (a.2 c) (b.2 c)⟩

theorem skipBlanks_blanks (line : Nat) (b : Blanks) :
    Cursor.skipBlanks ⟨line, b.1⟩ = ⟨line + b.1.count '\n', []⟩ := by
  have hend : StartsToken [] := by
    intro c hc
    cases hc
  simpa using skipBlanks_append line b hend

theorem endsNumeral_blanks (b : Blanks) : EndsNumeral b.1 := by
  intro c hc
  have : IsBlank c := b.2 c (List.mem_of_mem_head? hc)
  rcases this with rfl | rfl | rfl | rfl <;> decide

theorem endsNumeral_append (b : Blanks) {c : Char} (hc : c = ',' ∨ c = ']' ∨ c = '}')
    (rest : List Char) : EndsNumeral (b.1 ++ c :: rest) := by
  obtain ⟨b, hb⟩ := b
  cases b with
  | nil =>
    intro d hd
    cases hd
    rcases hc with rfl | rfl | rfl <;> decide
  | cons d b =>
    intro e he
    cases he
    exact endsNumeral_blanks ⟨d :: b, hb⟩ d rfl

theorem startsToken_cons {c : Char} (hc : ¬ IsBlank c) (cs : List Char) :
    StartsToken (c :: cs) := by
  intro d hd
  cases hd
  exact hc

theorem NumeralSpelling.exists_chars_cons (n : NumeralSpelling) :
    ∃ d cs, n.chars = d :: cs ∧ (d = '-' ∨ isDecimalDigit d = true) := by
  obtain ⟨d, ds, hd, hdigit⟩ := n.whole.exists_cons
  cases hn : n.negative with
  | true => exact ⟨'-', _, by simp [chars, hn]; rfl, Or.inl rfl⟩
  | false => exact ⟨d, _, by simp [chars, hn, hd]; rfl, Or.inr hdigit⟩

namespace Spelling

theorem itemsChars_cons_cons (p q : Padded Spelling) (ps : List (Padded Spelling)) :
    itemsChars (p :: q :: ps) =
      p.before.1 ++ p.value.chars ++ p.after.1 ++ ',' :: itemsChars (q :: ps) := by
  rw [itemsChars]
  simp

theorem membersChars_cons_cons (k : KeySpelling) (p : Padded Spelling)
    (q : KeySpelling × Padded Spelling) (ps : List (KeySpelling × Padded Spelling)) :
    membersChars ((k, p) :: q :: ps) =
      k.before.1 ++ StringPiece.quoted k.value ++ k.after.1 ++ ':' :: p.before.1 ++
        p.value.chars ++ p.after.1 ++ ',' :: membersChars (q :: ps) := by
  rw [membersChars]
  simp

theorem itemsChars_before (b : Blanks) (s : Spelling) (a : Blanks) (ps : List (Padded Spelling)) :
    itemsChars (⟨b, s, a⟩ :: ps) = b.1 ++ itemsChars (⟨.none, s, a⟩ :: ps) := by
  cases ps with
  | nil => simp [itemsChars, Blanks.none]
  | cons => simp [itemsChars_cons_cons, Blanks.none]

theorem membersChars_before (b : Blanks) (key : List StringPiece) (a : Blanks) (p : Padded Spelling)
    (ps : List (KeySpelling × Padded Spelling)) :
    membersChars ((⟨b, key, a⟩, p) :: ps) = b.1 ++ membersChars ((⟨.none, key, a⟩, p) :: ps) := by
  cases ps with
  | nil => simp [membersChars, Blanks.none]
  | cons => simp [membersChars_cons_cons, Blanks.none]

theorem itemNodes_eq (items : List (Padded Spelling)) :
    itemNodes items = items.map (·.value.node) := by
  induction items with
  | nil => rfl
  | cons p ps ih => simp [itemNodes, ih]

theorem memberNodes_eq (members : List (KeySpelling × Padded Spelling)) :
    memberNodes members =
      members.map fun m => (⟨StringPiece.text? m.1.value, 0⟩, m.2.value.node) := by
  induction members with
  | nil => rfl
  | cons p ps ih => simp [memberNodes, ih]

/-- A value starts with a character that tells its kind, never with a blank or a bracket that
closes. -/
theorem exists_chars_cons (s : Spelling) :
    ∃ c cs, s.chars = c :: cs ∧ ¬ IsBlank c ∧ c ≠ ']' := by
  cases s with
  | null => exact ⟨'n', _, rfl, by decide⟩
  | bool b => cases b <;> exact ⟨_, _, rfl, by decide⟩
  | number n =>
    obtain ⟨d, cs, hd, hdigit⟩ := n.exists_chars_cons
    refine ⟨d, cs, hd, ?_, ?_⟩
    · rintro (rfl | rfl | rfl | rfl) <;> revert hdigit <;> decide
    · rintro rfl
      revert hdigit
      decide
  | string ps => exact ⟨'"', _, rfl, by decide⟩
  | array items gap => exact ⟨'[', _, rfl, by decide⟩
  | object members gap => exact ⟨'{', _, rfl, by decide⟩

-- The readers of a value, of a list and of what follows in a list take turns, so each character
-- needs three units of fuel. The bounds below leave each reader what the one it calls asks for.

/-- With so much fuel every value is read that is short enough. -/
def ReadsValue (fuel : Nat) : Prop :=
  ∀ (s : Spelling) (line : Nat) (b : Blanks) (rest : List Char),
    3 * s.chars.length ≤ fuel → EndsNumeral rest →
      ∃ n line', value fuel ⟨line, b.1 ++ (s.chars ++ rest)⟩ = ⟨n, .ok ⟨line', rest⟩⟩ ∧
        Node.Agrees n s.node

def ReadsItems (fuel : Nat) : Prop :=
  ∀ (items : List (Padded Spelling)) (line : Nat) (gap : Blanks) (rest : List Char),
    items ≠ [] → 3 * (itemsChars items).length + 1 ≤ fuel →
      ∃ ns closing line', moreItems fuel ⟨line, itemsChars items ++ (gap.1 ++ ']' :: rest)⟩ =
        ⟨ns, closing, .ok ⟨line', rest⟩⟩ ∧ List.Forall₂ Node.Agrees ns (itemNodes items)

def ReadsArray (fuel : Nat) : Prop :=
  ∀ (items : List (Padded Spelling)) (line : Nat) (gap : Blanks) (rest : List Char),
    3 * (itemsChars items).length + 2 ≤ fuel →
      ∃ ns closing line', Json.items fuel ⟨line, itemsChars items ++ (gap.1 ++ ']' :: rest)⟩ =
        ⟨ns, closing, .ok ⟨line', rest⟩⟩ ∧ List.Forall₂ Node.Agrees ns (itemNodes items)

def ReadsMembers (fuel : Nat) : Prop :=
  ∀ (members : List (KeySpelling × Padded Spelling)) (line : Nat) (gap : Blanks)
    (rest : List Char), members ≠ [] → 3 * (membersChars members).length + 1 ≤ fuel →
      ∃ ms closing line', moreMembers fuel ⟨line, membersChars members ++ (gap.1 ++ '}' :: rest)⟩ =
        ⟨ms, closing, .ok ⟨line', rest⟩⟩ ∧ List.Forall₂ Node.AgreesMember ms (memberNodes members)

def ReadsObject (fuel : Nat) : Prop :=
  ∀ (members : List (KeySpelling × Padded Spelling)) (line : Nat) (gap : Blanks)
    (rest : List Char), 3 * (membersChars members).length + 2 ≤ fuel →
      ∃ ms closing line', Json.members fuel ⟨line, membersChars members ++ (gap.1 ++ '}' :: rest)⟩ =
        ⟨ms, closing, .ok ⟨line', rest⟩⟩ ∧ List.Forall₂ Node.AgreesMember ms (memberNodes members)

theorem moreItems_last {fuel line : Nat} {c c' : Cursor} {n : Node} {rest : List Char}
    (hvalue : value fuel c = ⟨n, .ok c'⟩) (hskip : c'.skipBlanks = ⟨line, ']' :: rest⟩) :
    moreItems (fuel + 1) c = ⟨[n], line, .ok ⟨line, rest⟩⟩ := by
  simp only [moreItems, hvalue, hskip]

theorem moreItems_comma {fuel line : Nat} {c c' : Cursor} {n : Node} {rest : List Char}
    {rs : Contents Node} (hvalue : value fuel c = ⟨n, .ok c'⟩)
    (hskip : c'.skipBlanks = ⟨line, ',' :: rest⟩) (hrest : moreItems fuel ⟨line, rest⟩ = rs) :
    moreItems (fuel + 1) c = ⟨n :: rs.contents, rs.closing, rs.next⟩ := by
  simp only [moreItems, hvalue, hskip, hrest]

theorem ReadsItems.succ {fuel : Nat} (hv : ReadsValue fuel) (hi : ReadsItems fuel) :
    ReadsItems (fuel + 1) := by
  intro items line gap rest hne hfuel
  match items, hne with
  | [p], _ =>
    -- The blanks after the last item and those before the bracket cannot be told apart.
    have hchars : itemsChars [p] ++ (gap.1 ++ ']' :: rest) =
        p.before.1 ++ (p.value.chars ++ ((p.after.append gap).1 ++ ']' :: rest)) := by
      simp [itemsChars, Blanks.append]
    have hlen : p.value.chars.length ≤ (itemsChars [p]).length := by simp [itemsChars]; omega
    obtain ⟨n, line', hn, hagree⟩ := hv p.value line p.before _ (by omega)
      (endsNumeral_append (p.after.append gap) (Or.inr (Or.inl rfl)) rest)
    have hskip := skipBlanks_append line' (p.after.append gap)
      (startsToken_cons (by decide : ¬ IsBlank ']') rest)
    exact ⟨[n], _, _, hchars ▸ moreItems_last hn hskip, .cons hagree .nil⟩
  | p :: q :: ps, _ =>
    have hchars : itemsChars (p :: q :: ps) ++ (gap.1 ++ ']' :: rest) =
        p.before.1 ++ (p.value.chars ++ (p.after.1 ++
          ',' :: (itemsChars (q :: ps) ++ (gap.1 ++ ']' :: rest)))) := by
      simp [itemsChars_cons_cons]
    have hlen : p.value.chars.length + 1 + (itemsChars (q :: ps)).length ≤
        (itemsChars (p :: q :: ps)).length := by
      simp [itemsChars_cons_cons]
      omega
    obtain ⟨n, line', hn, hagree⟩ := hv p.value line p.before _ (by omega)
      (endsNumeral_append p.after (Or.inl rfl) (itemsChars (q :: ps) ++ (gap.1 ++ ']' :: rest)))
    have hskip := skipBlanks_append line' p.after (startsToken_cons (by decide : ¬ IsBlank ',')
      (itemsChars (q :: ps) ++ (gap.1 ++ ']' :: rest)))
    obtain ⟨ns, closing, line'', hns, hrest⟩ := hi (q :: ps) _ gap rest (by simp) (by omega)
    exact ⟨n :: ns, closing, line'', hchars ▸ moreItems_comma hn hskip hns, .cons hagree hrest⟩

theorem moreMembers_last {fuel line colon closing : Nat} {c c' : Cursor} {n : Node}
    {us : List StringUnit} {cs cs' cs'' rest : List Char}
    (hquote : c.skipBlanks = ⟨line, '"' :: cs⟩) (hkey : stringTail line cs = .ok (us, cs'))
    (hcolon : Cursor.skipBlanks ⟨line, cs'⟩ = ⟨colon, ':' :: cs''⟩)
    (hvalue : value fuel ⟨colon, cs''⟩ = ⟨n, .ok c'⟩)
    (hskip : c'.skipBlanks = ⟨closing, '}' :: rest⟩) :
    moreMembers (fuel + 1) c =
      ⟨[(.ofText (StringUnit.text? us) line colon, n)], closing, .ok ⟨closing, rest⟩⟩ := by
  simp only [moreMembers, hquote, hkey, hcolon, hvalue, hskip]

theorem moreMembers_comma {fuel line colon comma : Nat} {c c' : Cursor} {n : Node}
    {us : List StringUnit} {cs cs' cs'' rest : List Char} {rs : Contents (Key × Node)}
    (hquote : c.skipBlanks = ⟨line, '"' :: cs⟩) (hkey : stringTail line cs = .ok (us, cs'))
    (hcolon : Cursor.skipBlanks ⟨line, cs'⟩ = ⟨colon, ':' :: cs''⟩)
    (hvalue : value fuel ⟨colon, cs''⟩ = ⟨n, .ok c'⟩)
    (hskip : c'.skipBlanks = ⟨comma, ',' :: rest⟩) (hrest : moreMembers fuel ⟨comma, rest⟩ = rs) :
    moreMembers (fuel + 1) c =
      ⟨(.ofText (StringUnit.text? us) line colon, n) :: rs.contents, rs.closing, rs.next⟩ := by
  simp only [moreMembers, hquote, hkey, hcolon, hvalue, hskip, hrest]

theorem key_read (line : Nat) (k : KeySpelling) (rest : List Char) :
    ∃ l cs cs' colon, Cursor.skipBlanks
        ⟨line, k.before.1 ++ (StringPiece.quoted k.value ++ (k.after.1 ++ ':' :: rest))⟩ =
          ⟨l, '"' :: cs⟩ ∧
      stringTail l cs = .ok (k.value.map StringPiece.unit, cs') ∧
      Cursor.skipBlanks ⟨l, cs'⟩ = ⟨colon, ':' :: rest⟩ := by
  have hquoted : StringPiece.quoted k.value ++ (k.after.1 ++ ':' :: rest) =
      '"' :: (k.value.flatMap StringPiece.chars ++ '"' :: (k.after.1 ++ ':' :: rest)) := by
    simp [StringPiece.quoted]
  rw [hquoted]
  exact ⟨_, _, _, _, skipBlanks_append line k.before (startsToken_cons (by decide) _),
    stringTail_quoted _ _ _, skipBlanks_append _ k.after (startsToken_cons (by decide) _)⟩

theorem ReadsMembers.succ {fuel : Nat} (hv : ReadsValue fuel) (hm : ReadsMembers fuel) :
    ReadsMembers (fuel + 1) := by
  intro members line gap rest hne hfuel
  match members, hne with
  | [(k, p)], _ =>
    have hchars : membersChars [(k, p)] ++ (gap.1 ++ '}' :: rest) =
        k.before.1 ++ (StringPiece.quoted k.value ++ (k.after.1 ++ ':' :: (p.before.1 ++
          (p.value.chars ++ ((p.after.append gap).1 ++ '}' :: rest))))) := by
      simp [membersChars, Blanks.append]
    have hlen : p.value.chars.length ≤ (membersChars [(k, p)]).length := by
      simp [membersChars]
      omega
    obtain ⟨l, cs, cs', colon, hquote, hkey, hcolon⟩ := key_read line k
      (p.before.1 ++ (p.value.chars ++ ((p.after.append gap).1 ++ '}' :: rest)))
    obtain ⟨n, line', hn, hagree⟩ := hv p.value colon p.before _ (by omega)
      (endsNumeral_append (p.after.append gap) (Or.inr (Or.inr rfl)) rest)
    have hskip := skipBlanks_append line' (p.after.append gap)
      (startsToken_cons (by decide : ¬ IsBlank '}') rest)
    exact ⟨[(.ofText (StringPiece.text? k.value) l colon, n)], _, _,
      hchars ▸ moreMembers_last hquote hkey hcolon hn hskip, .cons ⟨rfl, hagree⟩ .nil⟩
  | (k, p) :: q :: ps, _ =>
    have hchars : membersChars ((k, p) :: q :: ps) ++ (gap.1 ++ '}' :: rest) =
        k.before.1 ++ (StringPiece.quoted k.value ++ (k.after.1 ++ ':' :: (p.before.1 ++
          (p.value.chars ++ (p.after.1 ++
            ',' :: (membersChars (q :: ps) ++ (gap.1 ++ '}' :: rest))))))) := by
      simp [membersChars_cons_cons]
    have hlen : p.value.chars.length + 1 + (membersChars (q :: ps)).length ≤
        (membersChars ((k, p) :: q :: ps)).length := by
      simp [membersChars_cons_cons]
      omega
    obtain ⟨l, cs, cs', colon, hquote, hkey, hcolon⟩ := key_read line k
      (p.before.1 ++ (p.value.chars ++ (p.after.1 ++
        ',' :: (membersChars (q :: ps) ++ (gap.1 ++ '}' :: rest)))))
    obtain ⟨n, line', hn, hagree⟩ := hv p.value colon p.before _ (by omega)
      (endsNumeral_append p.after (Or.inl rfl) (membersChars (q :: ps) ++ (gap.1 ++ '}' :: rest)))
    have hskip := skipBlanks_append line' p.after (startsToken_cons (by decide : ¬ IsBlank ',')
      (membersChars (q :: ps) ++ (gap.1 ++ '}' :: rest)))
    obtain ⟨ms, closing, line'', hms, hrest⟩ := hm (q :: ps) _ gap rest (by simp) (by omega)
    exact ⟨(.ofText (StringPiece.text? k.value) l colon, n) :: ms, closing, line'',
      hchars ▸ moreMembers_comma hquote hkey hcolon hn hskip hms, .cons ⟨rfl, hagree⟩ hrest⟩

theorem ReadsArray.succ {fuel : Nat} (hi : ReadsItems fuel) : ReadsArray (fuel + 1) := by
  intro items line gap rest hfuel
  cases items with
  | nil =>
    have hskip := skipBlanks_append line gap (startsToken_cons (by decide : ¬ IsBlank ']') rest)
    exact ⟨[], _, _, by simp [Json.items, itemsChars, hskip]; exact ⟨rfl, rfl⟩, .nil⟩
  | cons p ps =>
    -- The blanks of the first item are passed on the way to its first character.
    obtain ⟨c, cs, hc, hblank, hne⟩ := p.value.exists_chars_cons
    have hp : itemsChars (p :: ps) = p.before.1 ++ itemsChars (⟨.none, p.value, p.after⟩ :: ps) :=
      itemsChars_before p.before p.value p.after ps
    obtain ⟨tail, htail⟩ : ∃ tail, itemsChars (⟨.none, p.value, p.after⟩ :: ps) = c :: tail := by
      cases ps <;> simp [itemsChars, hc, Blanks.none]
    have hskip := skipBlanks_append line p.before
      (startsToken_cons hblank (tail ++ (gap.1 ++ ']' :: rest)))
    obtain ⟨ns, closing, line', hns, hagree⟩ := hi (⟨.none, p.value, p.after⟩ :: ps)
      (line + p.before.1.count '\n') gap rest (by simp)
      (by rw [hp, List.length_append] at hfuel; omega)
    refine ⟨ns, closing, line', ?_, hagree⟩
    rw [hp, htail, List.append_assoc, List.cons_append]
    rw [htail, List.cons_append] at hns
    simp [Json.items, hskip, hne, hns]

theorem ReadsObject.succ {fuel : Nat} (hm : ReadsMembers fuel) : ReadsObject (fuel + 1) := by
  intro members line gap rest hfuel
  cases members with
  | nil =>
    have hskip := skipBlanks_append line gap (startsToken_cons (by decide : ¬ IsBlank '}') rest)
    exact ⟨[], _, _, by simp [Json.members, membersChars, hskip]; exact ⟨rfl, rfl⟩, .nil⟩
  | cons m ps =>
    obtain ⟨k, p⟩ := m
    have hp : membersChars ((k, p) :: ps) =
        k.before.1 ++ membersChars ((⟨.none, k.value, k.after⟩, p) :: ps) :=
      membersChars_before k.before k.value k.after p ps
    obtain ⟨tail, htail⟩ :
        ∃ tail, membersChars ((⟨.none, k.value, k.after⟩, p) :: ps) = '"' :: tail := by
      cases ps <;> simp [membersChars, StringPiece.quoted, Blanks.none]
    have hskip := skipBlanks_append line k.before
      (startsToken_cons (by decide : ¬ IsBlank '"') (tail ++ (gap.1 ++ '}' :: rest)))
    obtain ⟨ms, closing, line', hms, hagree⟩ := hm ((⟨.none, k.value, k.after⟩, p) :: ps)
      (line + k.before.1.count '\n') gap rest (by simp)
      (by rw [hp, List.length_append] at hfuel; omega)
    refine ⟨ms, closing, line', ?_, hagree⟩
    rw [hp, htail, List.append_assoc, List.cons_append]
    rw [htail, List.cons_append] at hms
    simp [Json.members, hskip, hms]

theorem value_numeral {fuel line : Nat} {c : Cursor} {cs rest : List Char} {n : Numeral}
    (hskip : c.skipBlanks = ⟨line, cs⟩)
    (hstart : ∃ d ds, cs = d :: ds ∧ (d = '-' ∨ isDecimalDigit d = true))
    (hn : numeral line cs = .ok (n, rest)) :
    value (fuel + 1) c = ⟨.number line n, .ok ⟨line, rest⟩⟩ := by
  obtain ⟨d, ds, rfl, hd⟩ := hstart
  have hne : d ≠ 'n' ∧ d ≠ 't' ∧ d ≠ 'f' ∧ d ≠ '"' ∧ d ≠ '[' ∧ d ≠ '{' := by
    refine ⟨?_, ?_, ?_, ?_, ?_, ?_⟩ <;> rintro rfl <;> revert hd <;> decide
  rw [value, hskip]
  simp [hne, hd, hn, Except.mapError, Parsed.token]

theorem ReadsValue.succ {fuel : Nat} (ha : ReadsArray fuel) (ho : ReadsObject fuel) :
    ReadsValue (fuel + 1) := by
  intro s line b rest hfuel hends
  obtain ⟨c, cs, hc, hblank, -⟩ := s.exists_chars_cons
  have hskip : Cursor.skipBlanks ⟨line, b.1 ++ (s.chars ++ rest)⟩ =
      ⟨line + b.1.count '\n', s.chars ++ rest⟩ :=
    skipBlanks_append line b (hc ▸ startsToken_cons hblank (cs ++ rest))
  generalize line + b.1.count '\n' = l at hskip
  -- the first character tells the reader which kind of value comes
  cases s with
  | null =>
    simp only [chars, List.cons_append, List.nil_append] at hskip ⊢
    exact ⟨.null l, l, by simp [value, hskip, Cursor.word, Parsed.keyword],
      .null _ _, .null _ _⟩
  | bool v =>
    refine ⟨.bool l v, l, ?_, .bool _ _ _, .bool _ _ _⟩
    cases v <;> simp only [chars, List.cons_append, List.nil_append] at hskip ⊢ <;>
      simp [value, hskip, Cursor.word, Parsed.keyword]
  | number n =>
    obtain ⟨d, ds, hd, hdigit⟩ := n.exists_chars_cons
    exact ⟨.number l n.numeral, l, value_numeral hskip ⟨d, ds ++ rest, by simp [chars, hd], hdigit⟩
      (numeral_chars l n hends), .number _ _ _, .number _ _ _⟩
  | string ps =>
    have hchars :
        (string ps).chars ++ rest = '"' :: (ps.flatMap StringPiece.chars ++ '"' :: rest) := by
      simp [chars, StringPiece.quoted]
    rw [hchars] at hskip ⊢
    refine ⟨.string l (StringPiece.text? ps), l, ?_, .string _ _ _, .string _ _ _⟩
    simp [value, hskip, stringTail_quoted, Parsed.token, StringPiece.text?]
  | array items gap =>
    have hchars : (array items gap).chars ++ rest =
        '[' :: (itemsChars items ++ (gap.1 ++ ']' :: rest)) := by simp [chars]
    have hlen : (array items gap).chars.length = (itemsChars items).length + gap.1.length + 2 := by
      simp [chars]
      omega
    obtain ⟨ns, closing, line', hns, hagree⟩ := ha items l gap rest (by omega)
    rw [hchars] at hskip ⊢
    exact ⟨.array l ns (.closed closing), line', by simp [value, hskip, hns, stopOf],
      .array hagree⟩
  | object members gap =>
    have hchars : (object members gap).chars ++ rest =
        '{' :: (membersChars members ++ (gap.1 ++ '}' :: rest)) := by simp [chars]
    have hlen : (object members gap).chars.length =
        (membersChars members).length + gap.1.length + 2 := by
      simp [chars]
      omega
    obtain ⟨ms, closing, line', hms, hagree⟩ := ho members l gap rest (by omega)
    rw [hchars] at hskip ⊢
    exact ⟨.object l ms (.closed closing), line', by simp [value, hskip, hms, stopOf],
      .object hagree⟩

theorem readsValue_zero : ReadsValue 0 := by
  intro s line b rest hfuel
  obtain ⟨c, cs, hc, -⟩ := s.exists_chars_cons
  simp [hc] at hfuel

theorem reads (fuel : Nat) : ReadsValue fuel ∧ ReadsArray fuel ∧ ReadsItems fuel ∧
    ReadsObject fuel ∧ ReadsMembers fuel := by
  induction fuel with
  | zero =>
    refine ⟨readsValue_zero, ?_, ?_, ?_, ?_⟩
    · exact fun _ _ _ _ hfuel => absurd hfuel (by omega)
    · exact fun _ _ _ _ _ hfuel => absurd hfuel (by omega)
    · exact fun _ _ _ _ hfuel => absurd hfuel (by omega)
    · exact fun _ _ _ _ _ hfuel => absurd hfuel (by omega)
  | succ fuel ih =>
    -- each reader calls the others with one unit of fuel less
    obtain ⟨hv, ha, hi, ho, hm⟩ := ih
    exact ⟨.succ ha ho, .succ hi, .succ hv hi, .succ hm, .succ hv hm⟩

/-- The document of a spelled text. -/
theorem parse_text (s : Padded Spelling) :
    ∃ n k, parse (text s) = ⟨n, .closed k⟩ ∧ Node.Agrees n s.value.node := by
  have htext : (text s).toList = s.before.1 ++ (s.value.chars ++ s.after.1) := by simp [text]
  have hlen := congrArg List.length htext
  simp only [List.length_append] at hlen
  obtain ⟨n, line', hn, hagree⟩ := (reads (3 * (text s).toList.length + 3)).1 s.value 1 s.before
    s.after.1 (by omega) (endsNumeral_blanks s.after)
  rw [← htext] at hn
  refine ⟨n, line' + s.after.1.count '\n', ?_, hagree⟩
  simp [parse, hn, skipBlanks_blanks]

/-- What is read as a value has a spelling. -/
def SpellsValue (fuel : Nat) : Prop :=
  ∀ (c c' : Cursor) (n : Node), value fuel c = ⟨n, .ok c'⟩ →
    ∃ (b : Blanks) (s : Spelling), c.rest = b.1 ++ (s.chars ++ c'.rest)

def SpellsItems (fuel : Nat) : Prop :=
  ∀ (c c' : Cursor) (ns : List Node) (closing : Nat), moreItems fuel c = ⟨ns, closing, .ok c'⟩ →
    ∃ p ps, c.rest = itemsChars (p :: ps) ++ ']' :: c'.rest

def SpellsMembers (fuel : Nat) : Prop :=
  ∀ (c c' : Cursor) (ms : List (Key × Node)) (closing : Nat),
    moreMembers fuel c = ⟨ms, closing, .ok c'⟩ →
      ∃ m ms, c.rest = membersChars (m :: ms) ++ '}' :: c'.rest

def SpellsArray (fuel : Nat) : Prop :=
  ∀ (c c' : Cursor) (ns : List Node) (closing : Nat), Json.items fuel c = ⟨ns, closing, .ok c'⟩ →
    ∃ (items : List (Padded Spelling)) (gap : Blanks),
      c.rest = itemsChars items ++ (gap.1 ++ ']' :: c'.rest)

def SpellsObject (fuel : Nat) : Prop :=
  ∀ (c c' : Cursor) (ms : List (Key × Node)) (closing : Nat),
    Json.members fuel c = ⟨ms, closing, .ok c'⟩ →
      ∃ (members : List (KeySpelling × Padded Spelling)) (gap : Blanks),
        c.rest = membersChars members ++ (gap.1 ++ '}' :: c'.rest)

theorem SpellsItems.succ {fuel : Nat} (hv : SpellsValue fuel) (hi : SpellsItems fuel) :
    SpellsItems (fuel + 1) := by
  intro c c' ns closing h
  rw [moreItems] at h
  rcases hr : value fuel c with ⟨n, e | c₁⟩
  · simp [hr] at h
  obtain ⟨b, s, hc⟩ := hv c c₁ n hr
  obtain ⟨a, ha⟩ := exists_blanks c₁
  simp only [hr] at h
  split at h
  · rename_i line cs hskip
    cases h
    refine ⟨⟨b, s, a⟩, [], ?_⟩
    rw [hc, ha, hskip]
    simp [itemsChars]
  · rename_i line cs hskip
    rcases hrs : moreItems fuel ⟨line, cs⟩ with ⟨rest, k, next⟩
    rw [hrs] at h
    cases h
    obtain ⟨p, ps, hcs⟩ := hi _ _ _ _ hrs
    refine ⟨⟨b, s, a⟩, p :: ps, ?_⟩
    rw [hc, ha, hskip, itemsChars_cons_cons]
    simpa using hcs
  · cases h

theorem SpellsMembers.succ {fuel : Nat} (hv : SpellsValue fuel) (hm : SpellsMembers fuel) :
    SpellsMembers (fuel + 1) := by
  intro c c' ms closing h
  obtain ⟨b, hb⟩ := exists_blanks c
  rw [moreMembers] at h
  -- A quote, a key, a colon and a value, then a bracket or a comma. Anything else is cut.
  split at h
  · rename_i line cs hquote
    rw [hquote] at hb
    split at h
    · cases h
    · rename_i us cs₁ hkey
      obtain ⟨ps, rfl⟩ := exists_pieces_of_stringTail hkey
      obtain ⟨a, ha⟩ := exists_blanks ⟨line, cs₁⟩
      split at h
      · rename_i colon cs₂ hcolon
        rw [hcolon] at ha
        rcases hr : value fuel ⟨colon, cs₂⟩ with ⟨n, e | c₁⟩
        · simp [hr] at h
        obtain ⟨b', s, hs⟩ := hv _ _ _ hr
        obtain ⟨a', ha'⟩ := exists_blanks c₁
        simp only [hr] at h
        split at h
        · rename_i line' cs₃ hskip
          cases h
          refine ⟨(⟨b, ps, a⟩, ⟨b', s, a'⟩), [], ?_⟩
          simp only at ha hs
          rw [hb, ha, hs, ha', hskip]
          simp [membersChars, StringPiece.quoted]
        · rename_i line' cs₃ hskip
          rcases hrs : moreMembers fuel ⟨line', cs₃⟩ with ⟨rest, k, next⟩
          rw [hrs] at h
          cases h
          obtain ⟨m, ms, hcs⟩ := hm _ _ _ _ hrs
          refine ⟨(⟨b, ps, a⟩, ⟨b', s, a'⟩), m :: ms, ?_⟩
          simp only at ha hs hcs
          rw [hb, ha, hs, ha', hskip, membersChars_cons_cons]
          simp [StringPiece.quoted, hcs]
        · cases h
      · cases h
  · cases h

theorem SpellsArray.succ {fuel : Nat} (hi : SpellsItems fuel) : SpellsArray (fuel + 1) := by
  intro c c' ns closing h
  obtain ⟨b, hb⟩ := exists_blanks c
  rw [Json.items] at h
  split at h
  · rename_i line cs hskip
    cases h
    exact ⟨[], b, by rw [hb, hskip]; rfl⟩
  · obtain ⟨p, ps, hp⟩ := hi _ _ _ _ h
    refine ⟨⟨b.append p.before, p.value, p.after⟩ :: ps, .none, ?_⟩
    rw [hb, hp, itemsChars_before, itemsChars_before (b.append p.before)]
    simp [Blanks.append, Blanks.none]

theorem SpellsObject.succ {fuel : Nat} (hm : SpellsMembers fuel) : SpellsObject (fuel + 1) := by
  intro c c' ms closing h
  obtain ⟨b, hb⟩ := exists_blanks c
  rw [Json.members] at h
  split at h
  · rename_i line cs hskip
    cases h
    exact ⟨[], b, by rw [hb, hskip]; rfl⟩
  · obtain ⟨⟨k, p⟩, ps, hp⟩ := hm _ _ _ _ h
    refine ⟨(⟨b.append k.before, k.value, k.after⟩, p) :: ps, .none, ?_⟩
    rw [hb, hp, membersChars_before, membersChars_before (b.append k.before)]
    simp [Blanks.append, Blanks.none]

theorem exists_word {line line' : Nat} {w cs rest : List Char}
    (h : Cursor.word line w cs = .ok ⟨line', rest⟩) : cs = w ++ rest := by
  induction w generalizing cs with
  | nil =>
    cases h
    rfl
  | cons x w ih =>
    cases cs with
    | nil => cases h
    | cons c cs =>
      simp only [Cursor.word] at h
      split at h
      · rename_i hx
        rw [hx, ih h]
        rfl
      · cases h

theorem exists_keyword {line : Nat} {w cs : List Char} {c' : Cursor} {n n' : Node}
    (h : Parsed.keyword line (Cursor.word line w cs) n = ⟨n', .ok c'⟩) : cs = w ++ c'.rest := by
  unfold Parsed.keyword at h
  split at h
  · cases h
    exact exists_word ‹_›
  · cases h

theorem SpellsValue.succ {fuel : Nat} (ha : SpellsArray fuel) (ho : SpellsObject fuel) :
    SpellsValue (fuel + 1) := by
  intro c c' n h
  obtain ⟨b, hb⟩ := exists_blanks c
  rw [value] at h
  rcases hskip : c.skipBlanks with ⟨line, cs⟩
  rw [hskip] at h hb
  simp only at h hb
  refine ⟨b, ?_⟩
  rw [hb]
  simp only [List.append_cancel_left_eq]
  -- One case for each character that a value can start with.
  split at h
  · exact ⟨.null, exists_keyword h⟩
  · exact ⟨.bool true, exists_keyword h⟩
  · exact ⟨.bool false, exists_keyword h⟩
  · rename_i cs
    rcases hs : stringTail line cs with e | ⟨us, rest⟩
    · simp [hs, Parsed.token] at h
    · obtain ⟨ps, rfl⟩ := exists_pieces_of_stringTail hs
      simp only [hs, Parsed.token] at h
      cases h
      exact ⟨.string ps, by simp [chars, StringPiece.quoted]⟩
  · rename_i cs
    rcases hr : Json.items fuel ⟨line, cs⟩ with ⟨ns, closing, next⟩
    rw [hr] at h
    cases h
    obtain ⟨items, gap, hcs⟩ := ha _ _ _ _ hr
    exact ⟨.array items gap, by simpa [chars] using hcs⟩
  · rename_i cs
    rcases hr : Json.members fuel ⟨line, cs⟩ with ⟨ms, closing, next⟩
    rw [hr] at h
    cases h
    obtain ⟨members, gap, hcs⟩ := ho _ _ _ _ hr
    exact ⟨.object members gap, by simpa [chars] using hcs⟩
  · rename_i d ds _ _ _ _ _ _
    split at h
    · rcases hn : numeral line (d :: ds) with e | ⟨m, rest⟩
      · simp [hn, Except.mapError, Parsed.token] at h
      · simp only [hn, Except.mapError, Parsed.token] at h
        cases h
        obtain ⟨n, hcs⟩ := exists_numeral hn
        exact ⟨.number n, hcs⟩
    · cases h
  · cases h

theorem spells (fuel : Nat) : SpellsValue fuel ∧ SpellsArray fuel ∧ SpellsItems fuel ∧
    SpellsObject fuel ∧ SpellsMembers fuel := by
  induction fuel with
  | zero => exact ⟨nofun, nofun, nofun, nofun, nofun⟩
  | succ fuel ih =>
    obtain ⟨hv, ha, hi, ho, hm⟩ := ih
    exact ⟨.succ ha ho, .succ hi, .succ hv hi, .succ hm, .succ hv hm⟩

/-- A text whose document is whole is spelled by the grammar. -/
theorem exists_text {t : String} {k : Nat} (h : (parse t).stop = .closed k) :
    ∃ s, t = text s := by
  unfold parse at h
  rcases hv : value (3 * t.toList.length + 3) ⟨1, t.toList⟩ with ⟨n, e | c⟩
  · simp [hv] at h
  obtain ⟨b, s, hs⟩ := (spells _).1 _ _ _ hv
  obtain ⟨a, ha⟩ := exists_blanks c
  refine ⟨⟨b, s, a⟩, ?_⟩
  have hend : c.skipBlanks.rest = [] := by
    by_contra hne
    simp [hv, hne] at h
  rw [hend, List.append_nil] at ha
  have hchars : t.toList = b.1 ++ s.chars ++ a.1 := by
    rw [List.append_assoc, ← ha]
    exact hs
  rw [text, ← hchars, String.ofList_toList]

end Spelling

end Json

end EnumCover
