import Mathlib.Data.List.TakeDrop
import EnumCover.Program.TypeRef

namespace EnumCover

namespace TypeRef

/-- An ASCII letter or an underscore. -/
def IsLetter (c : Char) : Prop := 'a' ≤ c ∧ c ≤ 'z' ∨ 'A' ≤ c ∧ c ≤ 'Z' ∨ c = '_'

/-- A letter, and letters and decimal digits behind it. -/
def IsIdentifier (s : String) : Prop :=
  ∃ c cs, s.toList = c :: cs ∧ IsLetter c ∧ ∀ d ∈ cs, IsLetter d ∨ '0' ≤ d ∧ d ≤ '9'

/-- Some characters, none of them white space, a bracket or a star. -/
def IsPath (s : String) : Prop :=
  s ≠ "" ∧ ∀ c ∈ s.toList, Text.isBlank c = false ∧ c ∉ ['[', ']', '(', ')', '{', '}', '*']

/-- The text is that of the declared type. -/
def Names (s : String) (t : NamedType) : Prop :=
  s = t.package ++ "." ++ t.name ∧ IsPath t.package ∧ IsIdentifier t.name

def IsPredeclared (s : String) : Prop :=
  IsIdentifier s ∨ ∃ word, IsIdentifier word ∧ s = "untyped " ++ word

section Characters

theorem isIdentifierStart_iff (c : Char) : isIdentifierStart c = true ↔ IsLetter c := by
  have hupper : c.isUpper = true ↔ 'A' ≤ c ∧ c ≤ 'Z' := decide_eq_true_iff
  have hlower : c.isLower = true ↔ 'a' ≤ c ∧ c ≤ 'z' :=
    Bool.and_eq_true_iff.trans (and_congr decide_eq_true_iff decide_eq_true_iff)
  have halpha : c.isAlpha = (c.isUpper || c.isLower) := rfl
  rw [isIdentifierStart, halpha, Bool.or_eq_true, Bool.or_eq_true, hupper, hlower, beq_iff_eq,
    IsLetter]
  tauto

theorem isIdentifierPart_iff (c : Char) :
    isIdentifierPart c = true ↔ IsLetter c ∨ '0' ≤ c ∧ c ≤ '9' := by
  have hdigit : c.isDigit = true ↔ '0' ≤ c ∧ c ≤ '9' :=
    Bool.and_eq_true_iff.trans (and_congr decide_eq_true_iff decide_eq_true_iff)
  have halphanum : c.isAlphanum = (c.isAlpha || c.isDigit) := rfl
  rw [← isIdentifierStart_iff, isIdentifierPart, isIdentifierStart, halphanum, Bool.or_eq_true,
    Bool.or_eq_true, Bool.or_eq_true, hdigit]
  tauto

theorem isPathChar_iff (c : Char) : isPathChar c = true ↔
    Text.isBlank c = false ∧ c ∉ ['[', ']', '(', ')', '{', '}', '*'] := by
  rw [isPathChar, Bool.not_eq_true', Bool.or_eq_false_iff, List.contains_eq_mem,
    decide_eq_false_iff_not]

theorem dot_notMem_of_isIdentifier {s : String} (h : IsIdentifier s) : '.' ∉ s.toList := by
  obtain ⟨c, cs, hs, hc, hcs⟩ := h
  have hdot : ¬IsLetter '.' := by unfold IsLetter; decide
  rw [hs, List.mem_cons, not_or]
  constructor
  · rintro rfl
    exact hdot hc
  · intro hmem
    rcases hcs '.' hmem with hletter | hdigit
    · exact hdot hletter
    · exact absurd hdigit (by decide)

end Characters

section Parts

variable {cs path name : List Char}

theorem isIdentifier_toList (s : String) : isIdentifier s.toList = true ↔ IsIdentifier s := by
  unfold isIdentifier IsIdentifier
  split
  · next h => simp [h]
  · next c cs h =>
    rw [h, Bool.and_eq_true, isIdentifierStart_iff, List.all_eq_true]
    simp [isIdentifierPart_iff]

theorem append_of_splitLastDot? (h : splitLastDot? cs = some (path, name)) :
    cs = path ++ '.' :: name := by
  unfold splitLastDot? at h
  split at h
  · cases h
  · rename_i dot before hdrop
    cases h
    have hdot : dot = '.' := by
      have := List.head?_dropWhile_not (· != '.') cs.reverse
      rw [hdrop] at this
      simpa using this
    have hcs : cs.reverse.takeWhile (· != '.') ++ '.' :: before = cs.reverse := by
      rw [hdot] at hdrop
      rw [← hdrop, List.takeWhile_append_dropWhile]
    simpa using (congrArg List.reverse hcs).symm

theorem splitLastDot?_append (h : '.' ∉ name) :
    splitLastDot? (path ++ '.' :: name) = some (path, name) := by
  have hreverse : (path ++ '.' :: name).reverse = name.reverse ++ '.' :: path.reverse := by
    rw [List.reverse_append, List.reverse_cons, List.append_assoc, List.singleton_append]
  have hname : ∀ c ∈ name.reverse, (c != '.') = true := by
    intro c hc
    rw [bne_iff_ne]
    rintro rfl
    exact h (List.mem_reverse.mp hc)
  rw [splitLastDot?, hreverse, List.takeWhile_append_of_pos hname,
    List.dropWhile_append_of_pos hname]
  simp

theorem isPath_toList (s : String) :
    s.toList ≠ [] ∧ s.toList.all isPathChar = true ↔ IsPath s := by
  unfold IsPath
  apply and_congr
  · rw [ne_eq, ne_eq, String.toList_eq_nil_iff]
  · rw [List.all_eq_true]
    exact forall₂_congr fun c _ => isPathChar_iff c

theorem toList_eq_of_names {s : String} {t : NamedType} (h : Names s t) :
    s.toList = t.package.toList ++ '.' :: t.name.toList := by
  rw [h.1, String.toList_append, String.toList_append, List.append_assoc]
  rfl

theorem namedType?_toList (s : String) (t : NamedType) :
    namedType? s.toList = some t ↔ Names s t := by
  constructor
  · intro h
    obtain ⟨⟨path, name⟩, hsplit, h⟩ := Option.bind_eq_some_iff.mp h
    obtain ⟨p, rfl⟩ : ∃ p : String, p.toList = path := ⟨_, String.toList_ofList⟩
    obtain ⟨n, rfl⟩ : ∃ n : String, n.toList = name := ⟨_, String.toList_ofList⟩
    dsimp only at h
    split at h
    · next hparts =>
      obtain ⟨hne, hpath, hname⟩ := hparts
      rw [String.ofList_toList, String.ofList_toList] at h
      obtain rfl := Option.some.inj h
      refine ⟨?_, (isPath_toList p).mp ⟨hne, hpath⟩, (isIdentifier_toList n).mp hname⟩
      apply String.toList_injective
      rw [append_of_splitLastDot? hsplit, String.toList_append, String.toList_append,
        List.append_assoc]
      rfl
    · cases h
  · intro h
    obtain ⟨hne, hpath⟩ := (isPath_toList t.package).mpr h.2.1
    have hname := (isIdentifier_toList t.name).mpr h.2.2
    rw [namedType?, toList_eq_of_names h,
      splitLastDot?_append (dot_notMem_of_isIdentifier h.2.2), Option.bind_some]
    dsimp only
    rw [if_pos ⟨hne, hpath, hname⟩, String.ofList_toList, String.ofList_toList]

theorem isBasic_toList (s : String) : isBasic s.toList = true ↔ IsPredeclared s := by
  unfold isBasic IsPredeclared
  rw [Bool.or_eq_true, Bool.and_eq_true, isIdentifier_toList, List.isPrefixOf_iff_prefix]
  apply or_congr_right
  constructor
  · rintro ⟨⟨rest, hrest⟩, hword⟩
    obtain ⟨word, rfl⟩ : ∃ word : String, word.toList = rest := ⟨_, String.toList_ofList⟩
    rw [← hrest, List.drop_left, isIdentifier_toList] at hword
    refine ⟨word, hword, ?_⟩
    apply String.toList_injective
    rw [String.toList_append, hrest]
  · rintro ⟨word, hword, rfl⟩
    rw [String.toList_append, List.drop_left, isIdentifier_toList]
    exact ⟨List.prefix_append _ _, hword⟩

end Parts

section Classes

variable {s : String}

theorem dot_mem_of_names {t : NamedType} (h : Names s t) : '.' ∈ s.toList := by
  rw [toList_eq_of_names h]
  exact List.mem_append_right _ List.mem_cons_self

theorem dot_notMem_of_isPredeclared (h : IsPredeclared s) : '.' ∉ s.toList := by
  rcases h with hs | ⟨word, hword, rfl⟩
  · exact dot_notMem_of_isIdentifier hs
  · rw [String.toList_append, List.mem_append, not_or]
    exact ⟨by decide, dot_notMem_of_isIdentifier hword⟩

theorem ofString_eq_named_iff (t : NamedType) : ofString s = named t ↔ Names s t := by
  rw [← namedType?_toList, ofString]
  split
  · next u hu => rw [hu, named.injEq, Option.some.injEq]
  · next hnone =>
    rw [hnone]
    split <;> simp

theorem names_unique {t u : NamedType} (ht : Names s t) (hu : Names s u) : t = u := by
  rw [← ofString_eq_named_iff] at ht hu
  exact named.inj (ht.symm.trans hu)

/-- The three things that a text can be, and what becomes of it. -/
theorem ofString_cases (s : String) :
    (∃ t, Names s t ∧ ofString s = named t) ∨ (IsPredeclared s ∧ ofString s = basic s) ∨
      ((¬∃ t, Names s t) ∧ ¬IsPredeclared s ∧ ofString s = composite s) := by
  by_cases hnames : ∃ t, Names s t
  · obtain ⟨t, ht⟩ := hnames
    exact .inl ⟨t, ht, (ofString_eq_named_iff t).mpr ht⟩
  · have hnone : namedType? s.toList = none := by
      rw [Option.eq_none_iff_forall_ne_some]
      intro t ht
      exact hnames ⟨t, (namedType?_toList s t).mp ht⟩
    rw [ofString, hnone, ← isBasic_toList]
    by_cases hbasic : isBasic s.toList = true
    · exact .inr (.inl ⟨hbasic, if_pos hbasic⟩)
    · exact .inr (.inr ⟨hnames, hbasic, if_neg hbasic⟩)

theorem ofString_eq_basic_iff (u : String) : ofString s = basic u ↔ u = s ∧ IsPredeclared s := by
  rcases ofString_cases s with ⟨t, ht, heq⟩ | ⟨hbasic, heq⟩ | ⟨-, hbasic, heq⟩
  · have hnot : ¬IsPredeclared s := fun h => dot_notMem_of_isPredeclared h (dot_mem_of_names ht)
    simp [heq, hnot]
  · simp [heq, hbasic, eq_comm]
  · simp [heq, hbasic]

theorem ofString_eq_composite_iff (u : String) :
    ofString s = composite u ↔ u = s ∧ (¬∃ t, Names s t) ∧ ¬IsPredeclared s := by
  rcases ofString_cases s with ⟨t, ht, heq⟩ | ⟨hbasic, heq⟩ | ⟨hnames, hbasic, heq⟩
  · have hnames : ∃ t, Names s t := ⟨t, ht⟩
    simp [heq, hnames]
  · simp [heq, hbasic]
  · simp only [heq, hnames, hbasic, composite.injEq, eq_comm, not_false_eq_true, and_true]

/-- The text of a type is the one it was read from. -/
theorem text_ofString (s : String) : (ofString s).text = s := by
  rcases ofString_cases s with ⟨t, ht, heq⟩ | ⟨-, heq⟩ | ⟨-, -, heq⟩
  · rw [heq]
    exact ht.1.symm
  · rw [heq, text]
  · rw [heq, text]

end Classes

end TypeRef

/-- A text is that of a declared type exactly if it is a package path, a dot and an identifier; the
dot is then the last one, and there is no other way to split the text. It is that of a predeclared
type exactly if it is an identifier, perhaps after the word `untyped`, and any other text is kept as
it is. The type always has the text that it was read from, so no two texts give the same type. -/
theorem type_texts_classified (s : String) :
    (∀ t, TypeRef.ofString s = .named t ↔ TypeRef.Names s t) ∧
    (∀ t, TypeRef.Names s t → '.' ∉ t.name.toList ∧ ∀ u, TypeRef.Names s u → u = t) ∧
    (∀ u, TypeRef.ofString s = .basic u ↔ u = s ∧ TypeRef.IsPredeclared s) ∧
    (∀ u, TypeRef.ofString s = .composite u ↔
      u = s ∧ (¬∃ t, TypeRef.Names s t) ∧ ¬TypeRef.IsPredeclared s) ∧
    (TypeRef.ofString s).text = s ∧
    TypeRef.ofString (TypeRef.ofString s).text = TypeRef.ofString s ∧
    Function.Injective TypeRef.ofString := by
  have htext := TypeRef.text_ofString
  refine ⟨TypeRef.ofString_eq_named_iff, ?_, TypeRef.ofString_eq_basic_iff,
    TypeRef.ofString_eq_composite_iff, htext s, ?_, ?_⟩
  · intro t ht
    exact ⟨TypeRef.dot_notMem_of_isIdentifier ht.2.2, fun u hu => TypeRef.names_unique hu ht⟩
  · rw [htext]
  · exact Function.LeftInverse.injective htext

end EnumCover
