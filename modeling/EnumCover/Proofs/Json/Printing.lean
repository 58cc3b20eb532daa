import EnumCover.Proofs.Json.Parsing

namespace EnumCover

theorem digit?_digitChar {n : Nat} (h : n < 10) : digit? 10 n.digitChar = some n := by
  have : ∀ n : Fin 10, digit? 10 n.1.digitChar = some n.1 := by decide
  exact this ⟨n, h⟩

theorem natOfDigits?_decimalDigits (n : Nat) : natOfDigits? 10 (decimalDigits n) = some n := by
  induction n using Nat.strongRecOn with
  | ind n ih =>
    by_cases hn : n < 10
    · simp [natOfDigits?, decimalDigits, Nat.toDigits_of_lt_base hn, natOfDigitsFrom?,
        digit?_digitChar hn]
    · have hdiv := ih (n / 10) (by omega)
      rw [decimalDigits, Nat.toDigits_of_base_le (by omega) (by omega), natOfDigits?,
        natOfDigitsFrom?_append]
      rw [decimalDigits, natOfDigits?] at hdiv
      have hlast := digit?_digitChar (Nat.mod_lt n (by omega : 10 > 0))
      simp only [hdiv, Option.bind_some, natOfDigitsFrom?, hlast]
      congr 1
      omega

@[simp] theorem decimalValue_decimalDigits (n : Nat) : decimalValue (decimalDigits n) = n := by
  simp [decimalValue, natOfDigits?_decimalDigits]

theorem digit?_isSome_of_natOfDigitsFrom? {radix start n : Nat} {cs : List Char}
    (h : natOfDigitsFrom? radix start cs = some n) : ∀ c ∈ cs, (digit? radix c).isSome := by
  induction cs generalizing start with
  | nil => simp
  | cons c cs ih =>
    obtain ⟨d, hd, h⟩ := Option.bind_eq_some_iff.mp h
    exact List.forall_mem_cons.mpr ⟨by simp [hd], ih h⟩

theorem head?_decimalDigits_ne {n : Nat} (h : 0 < n) : (decimalDigits n).head? ≠ some '0' := by
  induction n using Nat.strongRecOn with
  | ind n ih =>
    by_cases hn : n < 10
    · have : ∀ n : Fin 10, 0 < n.1 → n.1.digitChar ≠ '0' := by decide
      simpa [decimalDigits, Nat.toDigits_of_lt_base hn] using this ⟨n, hn⟩ h
    · rw [decimalDigits, Nat.toDigits_of_base_le (by omega) (by omega)]
      have hne : Nat.toDigits 10 (n / 10) ≠ [] := Nat.toDigits_ne_nil
      rw [List.head?_append_of_ne_nil _ hne]
      exact ih (n / 10) (by omega) (by omega)

namespace Json

def digits (n : Nat) : Digits :=
  ⟨decimalDigits n, Nat.toDigits_ne_nil,
    digit?_isSome_of_natOfDigitsFrom? (natOfDigits?_decimalDigits n)⟩

theorem digits_no_zero (n : Nat) : (digits n).1.head? = some '0' → (digits n).1 = ['0'] := by
  intro h
  rcases Nat.eq_zero_or_pos n with rfl | hn
  · simp [digits, decimalDigits]
  · exact absurd h (head?_decimalDigits_ne hn)

def integerSpelling : Int → NumeralSpelling
  | .ofNat n => ⟨false, digits n, digits_no_zero n, none, none⟩
  | .negSucc n => ⟨true, digits (n + 1), digits_no_zero (n + 1), none, none⟩

theorem integerSpelling_chars (n : Int) : (integerSpelling n).chars = integerChars n := by
  cases n <;> simp [integerSpelling, NumeralSpelling.chars, integerChars, digits,
    NumeralSpelling.partChars, NumeralSpelling.exponentChars]

/-- An integer of 64 bits, signed or not. -/
def IsWord (n : Int) : Prop := -(twoPow 63 : Int) ≤ n ∧ n < twoPow 64

theorem integerSpelling_toJson? {n : Int} (h : IsWord n) :
    (integerSpelling n).numeral.toJson? = some (.int n) := by
  obtain ⟨hlo, hhi⟩ := h
  cases n with
  | ofNat n =>
    have hn : n < twoPow 64 := Int.ofNat_lt.mp hhi
    simp [integerSpelling, NumeralSpelling.numeral, Numeral.toJson?, digits, hn]
  | negSucc n =>
    have hn : n + 1 ≤ twoPow 63 := by omega
    have hneg : (integerSpelling (.negSucc n)).numeral.toJson? =
        some (.int (-((n + 1 : Nat) : Int))) := by
      simp [integerSpelling, NumeralSpelling.numeral, Numeral.toJson?, digits, hn]
    exact hneg

theorem unicodeEscape_digits {c : Char} (h : c.toNat < 0x20) :
    ∃ w x y z, unicodeEscape c = ['\\', 'u', w, x, y, z] ∧
      natOfDigits? 16 [w, x, y, z] = some c.toNat := by
  have table : ∀ n : Fin 32, ∃ ds ∈ [(unicodeEscape (Char.ofNat n.1)).drop 2],
      unicodeEscape (Char.ofNat n.1) = '\\' :: 'u' :: ds ∧ ds.length = 4 ∧
        natOfDigits? 16 ds = some n.1 := by decide +kernel
  obtain ⟨ds, -, hds, hlen, hn⟩ := table ⟨c.toNat, h⟩
  rw [Char.ofNat_toNat] at hds
  match ds, hlen with
  | [w, x, y, z], _ => exact ⟨w, x, y, z, hds, hn⟩

theorem exists_piece (c : Char) :
    ∃ p : StringPiece, p.chars = escapeChar c ∧
      (p.unit = .char c ∨ p.unit = .code c.toNat ∧ c.toNat < 0x20) := by
  -- Seven characters have an escape of their own, the other control characters are written by their
  -- code, and all others stand for themselves.
  have short : ∀ e, StringUnit.escape? e = some c → escapeChar c = ['\\', e] →
      ∃ p : StringPiece, p.chars = escapeChar c ∧
        (p.unit = .char c ∨ p.unit = .code c.toNat ∧ c.toNat < 0x20) :=
    fun e he hc => ⟨.escape e c he, hc.symm, .inl rfl⟩
  by_cases h₁ : c = '"'
  · exact short '"' (by rw [h₁]; rfl) (by rw [h₁]; rfl)
  by_cases h₂ : c = '\\'
  · exact short '\\' (by rw [h₂]; rfl) (by rw [h₂]; rfl)
  by_cases h₃ : c = '\n'
  · exact short 'n' (by rw [h₃]; rfl) (by rw [h₃]; rfl)
  by_cases h₄ : c = '\r'
  · exact short 'r' (by rw [h₄]; rfl) (by rw [h₄]; rfl)
  by_cases h₅ : c = '\t'
  · exact short 't' (by rw [h₅]; rfl) (by rw [h₅]; rfl)
  by_cases h₆ : c.toNat = 0x08
  · have hc : c = '\x08' := by rw [← Char.ofNat_toNat c, h₆]
    exact short 'b' (by rw [hc]; rfl) (by rw [hc]; rfl)
  by_cases h₇ : c.toNat = 0x0C
  · have hc : c = '\x0c' := by rw [← Char.ofNat_toNat c, h₇]
    exact short 'f' (by rw [hc]; rfl) (by rw [hc]; rfl)
  by_cases h₈ : c.toNat < 0x20
  · obtain ⟨w, x, y, z, hchars, hn⟩ := unicodeEscape_digits h₈
    refine ⟨.code w x y z c.toNat hn, ?_, .inr ⟨rfl, h₈⟩⟩
    simp [escapeChar, h₁, h₂, h₃, h₄, h₅, h₆, h₇, h₈, hchars, StringPiece.chars]
  · refine ⟨.plain c ⟨h₁, h₂, by omega⟩, ?_, .inl rfl⟩
    simp [escapeChar, h₁, h₂, h₃, h₄, h₅, h₆, h₇, h₈, StringPiece.chars]

theorem exists_pieces_of_chars (cs : List Char) :
    ∃ ps : List StringPiece, ps.flatMap StringPiece.chars = cs.flatMap escapeChar ∧
      StringUnit.chars? (ps.map StringPiece.unit) = some cs := by
  induction cs with
  | nil => exact ⟨[], rfl, rfl⟩
  | cons c cs ih =>
    obtain ⟨ps, hchars, hunits⟩ := ih
    obtain ⟨p, hp, hunit⟩ := exists_piece c
    refine ⟨p :: ps, by simp [hp, hchars], ?_⟩
    rw [List.map_cons]
    rcases hunit with hu | ⟨hu, hlt⟩
    · simp [hu, StringUnit.chars?, hunits]
    · -- A control character is no half of a surrogate pair.
      have hlead : StringUnit.isLead c.toNat = false := by simp [StringUnit.isLead]; omega
      have htrail : StringUnit.isTrail c.toNat = false := by simp [StringUnit.isTrail]; omega
      unfold StringUnit.chars?
      simp [hu, hunits, hlead, htrail]

theorem exists_quoted (s : String) :
    ∃ ps, StringPiece.quoted ps = stringChars s ∧ StringPiece.text? ps = some s := by
  obtain ⟨ps, hchars, hunits⟩ := exists_pieces_of_chars s.toList
  refine ⟨ps, by simp [StringPiece.quoted, stringChars, hchars], ?_⟩
  simp [StringPiece.text?, StringUnit.text?, hunits]

mutual
/-- No floating-point number stands in the value, and its integers have 64 bits. -/
def IsPlain : Json → Prop
  | null | bool _ | str _ => True
  | int n => IsWord n
  | float _ _ => False
  | arr items => ArePlain items
  | obj members => MembersArePlain members

def ArePlain : List Json → Prop
  | [] => True
  | j :: js => j.IsPlain ∧ ArePlain js

def MembersArePlain : List (String × Json) → Prop
  | [] => True
  | (_, j) :: ms => j.IsPlain ∧ MembersArePlain ms
end

mutual
/-- The document of a plain value, without lines. The texts of floating-point numbers are not
looked into; a cut stands in their place. -/
def node : Json → Node
  | null => .null 0
  | bool b => .bool 0 b
  | int n => .number 0 (integerSpelling n).numeral
  | float _ _ => .cut 0 (.both 0)
  | str s => .string 0 (some s)
  | arr items => .array 0 (itemNodes items) (.closed 0)
  | obj members => .object 0 (memberNodes members) (.closed 0)

def itemNodes : List Json → List Node
  | [] => []
  | j :: js => j.node :: itemNodes js

def memberNodes : List (String × Json) → List (Key × Node)
  | [] => []
  | (k, j) :: ms => (⟨some k, 0⟩, j.node) :: memberNodes ms
end

mutual
def nesting : Json → Nat
  | arr items => itemsNesting items + 1
  | obj members => membersNesting members + 1
  | _ => 0

def itemsNesting : List Json → Nat
  | [] => 0
  | j :: js => max j.nesting (itemsNesting js)

def membersNesting : List (String × Json) → Nat
  | [] => 0
  | (_, j) :: ms => max j.nesting (membersNesting ms)
end

mutual
theorem exists_spelling : ∀ j : Json, j.IsPlain →
    ∃ s : Spelling, s.chars = j.chars ∧ s.node = j.node
  | .null, _ => ⟨.null, rfl, rfl⟩
  | .bool true, _ => ⟨.bool true, rfl, rfl⟩
  | .bool false, _ => ⟨.bool false, rfl, rfl⟩
  | .int n, _ => ⟨.number (integerSpelling n), integerSpelling_chars n, rfl⟩
  | .float _ _, h => h.elim
  | .str s, _ => by
    obtain ⟨ps, hchars, htext⟩ := exists_quoted s
    exact ⟨.string ps, hchars, by rw [Spelling.node, htext, node]⟩
  | .arr items, h => by
    obtain ⟨ss, hchars, hnodes⟩ := exists_itemSpellings items h
    exact ⟨.array ss .none, by simp [Spelling.chars, chars, hchars, Blanks.none],
      by rw [Spelling.node, hnodes, node]⟩
  | .obj members, h => by
    obtain ⟨ss, hchars, hnodes⟩ := exists_memberSpellings members h
    exact ⟨.object ss .none, by simp [Spelling.chars, chars, hchars, Blanks.none],
      by rw [Spelling.node, hnodes, node]⟩

theorem exists_itemSpellings : ∀ js : List Json, ArePlain js →
    ∃ ss, Spelling.itemsChars ss = itemsChars js ∧ Spelling.itemNodes ss = itemNodes js
  | [], _ => ⟨[], rfl, rfl⟩
  | [j], h => by
    obtain ⟨s, hchars, hnode⟩ := exists_spelling j h.1
    exact ⟨[⟨.none, s, .none⟩], by simp [Spelling.itemsChars, itemsChars, hchars, Blanks.none],
      by simp [Spelling.itemNodes, itemNodes, hnode]⟩
  | j :: j' :: js, h => by
    obtain ⟨s, hchars, hnode⟩ := exists_spelling j h.1
    obtain ⟨ss, hrest, hnodes⟩ := exists_itemSpellings (j' :: js) h.2
    match ss, hnodes with
    | q :: qs, hnodes =>
      refine ⟨⟨.none, s, .none⟩ :: q :: qs, ?_, by rw [Spelling.itemNodes, hnode, hnodes]; rfl⟩
      simp [Spelling.itemsChars_cons_cons, itemsChars, hchars, hrest, Blanks.none]

theorem exists_memberSpellings : ∀ ms : List (String × Json), MembersArePlain ms →
    ∃ ss, Spelling.membersChars ss = membersChars ms ∧ Spelling.memberNodes ss = memberNodes ms
  | [], _ => ⟨[], rfl, rfl⟩
  | [(k, j)], h => by
    obtain ⟨ps, hkey, htext⟩ := exists_quoted k
    obtain ⟨s, hchars, hnode⟩ := exists_spelling j h.1
    exact ⟨[(⟨.none, ps, .none⟩, ⟨.none, s, .none⟩)],
      by simp [Spelling.membersChars, membersChars, hkey, hchars, Blanks.none],
      by simp [Spelling.memberNodes, memberNodes, htext, hnode]⟩
  | (k, j) :: m :: ms, h => by
    obtain ⟨ps, hkey, htext⟩ := exists_quoted k
    obtain ⟨s, hchars, hnode⟩ := exists_spelling j h.1
    obtain ⟨ss, hrest, hnodes⟩ := exists_memberSpellings (m :: ms) h.2
    match ss, hnodes with
    | q :: qs, hnodes =>
      refine ⟨(⟨.none, ps, .none⟩, ⟨.none, s, .none⟩) :: q :: qs, ?_,
        by rw [Spelling.memberNodes, htext, hnode, hnodes]; rfl⟩
      simp [Spelling.membersChars_cons_cons, membersChars, hkey, hchars, hrest, Blanks.none]
end

/-- The text of a plain value is spelled by the grammar. -/
theorem exists_compact_spelling {j : Json} (h : j.IsPlain) :
    ∃ s : Padded Spelling, Spelling.text s = j.compact ∧ s.value.node = j.node := by
  obtain ⟨s, hchars, hnode⟩ := exists_spelling j h
  exact ⟨⟨.none, s, .none⟩, by simp [Spelling.text, compact, hchars, Blanks.none], hnode⟩

theorem arePlain_iff {js : List Json} : ArePlain js ↔ ∀ j ∈ js, j.IsPlain := by
  induction js with
  | nil => simp [ArePlain]
  | cons j js ih => simp [ArePlain, ih]

theorem membersArePlain_iff {ms : List (String × Json)} :
    MembersArePlain ms ↔ ∀ m ∈ ms, m.2.IsPlain := by
  induction ms with
  | nil => simp [MembersArePlain]
  | cons m ms ih => simp [MembersArePlain, ih]

theorem itemNodes_eq (js : List Json) : itemNodes js = js.map node := by
  induction js with
  | nil => rfl
  | cons j js ih => simp [itemNodes, ih]

theorem memberNodes_eq (ms : List (String × Json)) :
    memberNodes ms = ms.map fun m => (⟨some m.1, 0⟩, m.2.node) := by
  induction ms with
  | nil => rfl
  | cons m ms ih => simp [memberNodes, ih]

theorem itemsNesting_le_iff {js : List Json} {d : Nat} :
    itemsNesting js ≤ d ↔ ∀ j ∈ js, j.nesting ≤ d := by
  induction js with
  | nil => simp [itemsNesting]
  | cons j js ih => rw [itemsNesting, Nat.max_le, ih, List.forall_mem_cons]

theorem membersNesting_le_iff {ms : List (String × Json)} {d : Nat} :
    membersNesting ms ≤ d ↔ ∀ m ∈ ms, m.2.nesting ≤ d := by
  induction ms with
  | nil => simp [membersNesting]
  | cons m ms ih => rw [membersNesting, Nat.max_le, ih, List.forall_mem_cons]

theorem isValue_toJson_node {j : Json} {depth : Nat} (hplain : j.IsPlain)
    (hnest : j.nesting ≤ depth) : (j.node.toJson depth).IsValue := by
  induction depth generalizing j with
  | zero =>
    cases j with
    | arr | obj => simp [nesting] at hnest
    | int n => exact Node.isValue_toJson_number.mpr (by simp [integerSpelling_toJson? hplain])
    | float => exact hplain.elim
    | _ => simp [node, Node.toJson]
  | succ depth ih =>
    cases j with
    | arr js =>
      rw [node, Node.isValue_toJson_array, itemNodes_eq]
      refine ⟨List.forall_mem_map.mpr fun j hj => ?_, 0, rfl⟩
      exact ih (arePlain_iff.mp hplain j hj)
        (itemsNesting_le_iff.mp (Nat.le_of_succ_le_succ hnest) j hj)
    | obj ms =>
      rw [node, Node.isValue_toJson_object, memberNodes_eq]
      refine ⟨List.forall_mem_map.mpr fun m hm => ⟨rfl, ?_⟩, 0, rfl⟩
      exact ih (membersArePlain_iff.mp hplain m hm)
        (membersNesting_le_iff.mp (Nat.le_of_succ_le_succ hnest) m hm)
    | int n => exact Node.isValue_toJson_number.mpr (by simp [integerSpelling_toJson? hplain])
    | float => exact hplain.elim
    | _ => simp [node, Node.toJson]

end Json

end EnumCover
