import Mathlib.Data.List.Basic
import EnumCover.Coverage.Outcome

namespace EnumCover

namespace Expr

/-- The value that a case matches: the constant value of a name or what a literal stands for, inside
any number of parentheses. -/
inductive HasCaseValue : Expr → Value → Prop where
  | ident (name : String) (type : Option TypeRef) (v : Value) :
    HasCaseValue (.ident name type (some v)) v
  | selector (qualifier name : String) (type : Option TypeRef) (v : Value) :
    HasCaseValue (.selector qualifier name type (some v)) v
  | lit (kind : LiteralKind) (raw : String) (type : Option TypeRef) (v : Value)
    (h : Literal.value? kind raw = some v) : HasCaseValue (.lit kind raw type) v
  | paren {inner : Expr} {v : Value} (h : HasCaseValue inner v) : HasCaseValue (.paren inner) v

theorem matchedValue?_paren (inner : Expr) :
    (paren inner).matchedValue? = inner.matchedValue? := by
  simp only [matchedValue?, withoutParens]

theorem HasCaseValue.matchedValue? {e : Expr} {v : Value} (h : e.HasCaseValue v) :
    e.matchedValue? = some v := by
  induction h with
  | ident | selector => rfl
  | lit kind raw type v h => exact h
  | paren _ ih => rw [matchedValue?_paren, ih]

theorem hasCaseValue_of_matchedValue? (v : Value) :
    (e : Expr) → e.matchedValue? = some v → e.HasCaseValue v
  | .ident name type value, h => by
    obtain rfl : value = some v := h
    exact .ident name type v
  | .selector qualifier name type value, h => by
    obtain rfl : value = some v := h
    exact .selector qualifier name type v
  | .lit kind raw type, h => .lit kind raw type v h
  | .paren inner, h => by
    rw [matchedValue?_paren] at h
    exact .paren (hasCaseValue_of_matchedValue? v inner h)
  | .funcLit _, h | .other _ _ _, h => by cases h

theorem hasCaseValue_iff (e : Expr) (v : Value) : e.HasCaseValue v ↔ e.matchedValue? = some v :=
  ⟨HasCaseValue.matchedValue?, hasCaseValue_of_matchedValue? v e⟩

instance (e : Expr) (v : Value) : Decidable (e.HasCaseValue v) :=
  decidable_of_iff _ (hasCaseValue_iff e v).symm

end Expr

namespace Clause

/-- Every case of the clause has a value. -/
def Resolved (c : Clause) : Prop := ∀ e ∈ c.list, ∃ v, e.HasCaseValue v

end Clause

namespace Cases

theorem exprValues?_eq_none_iff (es : List Expr) :
    exprValues? es = none ↔ ¬∀ e ∈ es, ∃ v, e.HasCaseValue v := by
  induction es with
  | nil => simp [exprValues?]
  | cons e es ih =>
    cases he : e.matchedValue? with
    | none => simp [exprValues?, he, Expr.hasCaseValue_iff]
    | some v =>
      have hv : ∃ v, e.HasCaseValue v := ⟨v, (Expr.hasCaseValue_iff e v).mpr he⟩
      simp only [exprValues?, he, Option.bind_some, Option.map_eq_none_iff, ih,
        List.forall_mem_cons, hv, true_and]

theorem mem_exprValues?_iff {es : List Expr} {vs : List Value} (h : exprValues? es = some vs)
    (v : Value) : v ∈ vs ↔ ∃ e ∈ es, e.HasCaseValue v := by
  induction es generalizing vs with
  | nil =>
    obtain rfl := Option.some.inj h
    simp
  | cons e es ih =>
    obtain ⟨w, hw, h⟩ := Option.bind_eq_some_iff.mp h
    obtain ⟨ws, hws, rfl⟩ := Option.map_eq_some_iff.mp h
    simp only [List.mem_cons, ih hws, exists_eq_or_imp]
    rw [Expr.hasCaseValue_iff e, hw, Option.some.injEq, eq_comm]

/-- There is a clause of one kind with only clauses of the other kind before it. -/
def First (P Q : Clause → Prop) (cs : List Clause) : Prop :=
  ∃ before c after, cs = before ++ c :: after ∧ P c ∧ ∀ d ∈ before, Q d

theorem not_first_nil (P Q : Clause → Prop) : ¬First P Q [] := by
  intro hex
  obtain ⟨before, c, after, h, -⟩ := hex
  exact List.append_ne_nil_of_right_ne_nil before (List.cons_ne_nil c after) h.symm

theorem first_cons_iff (P Q : Clause → Prop) (c : Clause) (cs : List Clause) :
    First P Q (c :: cs) ↔ P c ∨ Q c ∧ First P Q cs := by
  constructor
  · intro hex
    obtain ⟨before, d, after, h, hd, hbefore⟩ := hex
    cases before with
    | nil =>
      obtain ⟨rfl, rfl⟩ := List.cons.inj h
      exact .inl hd
    | cons b before =>
      obtain ⟨rfl, rfl⟩ := List.cons.inj h
      rw [List.forall_mem_cons] at hbefore
      exact .inr ⟨hbefore.1, before, d, after, rfl, hd, hbefore.2⟩
  · intro hor
    rcases hor with hc | ⟨hc, before, d, after, rfl, hd, hbefore⟩
    · exact ⟨[], c, cs, rfl, hc, by simp⟩
    · exact ⟨c :: before, d, after, rfl, hd, List.forall_mem_cons.mpr ⟨hc, hbefore⟩⟩

/-- The default clause comes before every case without a value. -/
def DefaultFirst : List Clause → Prop := First (·.list = []) Clause.Resolved

/-- A case without a value comes before every default clause. -/
def UnresolvedFirst : List Clause → Prop := First (¬·.Resolved) (·.list ≠ [])

/-- There is no default clause and no case without a value. -/
def AllResolved (cs : List Clause) : Prop := ∀ c ∈ cs, c.list ≠ [] ∧ c.Resolved

/-- Some case has the value. -/
def Match (cs : List Clause) (v : Value) : Prop := ∃ c ∈ cs, ∃ e ∈ c.list, e.HasCaseValue v

/-- What some clauses come to after a clause with the given values. -/
def prepend (vs : List Value) : Cases → Cases
  | values ws => values (vs ++ ws)
  | found => found

theorem ofClauses_cons_values {c : Clause} {cs : List Clause} {vs : List Value}
    (hne : c.list ≠ []) (hvs : exprValues? c.list = some vs) :
    ofClauses (c :: cs) = (ofClauses cs).prepend vs := by
  have hd : c.isDefault = false := by simpa [Clause.isDefault] using hne
  simp only [ofClauses, hd, Bool.false_eq_true, if_false, hvs]
  cases ofClauses cs <;> rfl

/-- What looking through the clauses comes to says which of them decides. -/
theorem ofClauses_spec (cs : List Clause) :
    (ofClauses cs = catchAll ↔ DefaultFirst cs) ∧
    (ofClauses cs = unresolved ↔ UnresolvedFirst cs) ∧
    ((∃ vs, ofClauses cs = values vs) ↔ AllResolved cs) := by
  induction cs with
  | nil => simp [ofClauses, DefaultFirst, UnresolvedFirst, not_first_nil, AllResolved]
  | cons c cs ih =>
    obtain ⟨ihc, ihu, ihv⟩ := ih
    simp only [DefaultFirst, UnresolvedFirst, first_cons_iff, AllResolved,
      List.forall_mem_cons] at *
    by_cases hne : c.list = []
    · -- a default clause has no case, so none without a value
      have hr : c.Resolved := by
        intro e he
        rw [hne] at he
        cases he
      have hc : ofClauses (c :: cs) = catchAll := by simp [ofClauses, Clause.isDefault, hne]
      simp [hc, hne, hr]
    · cases hvs : exprValues? c.list with
      | none =>
        have hr : ¬c.Resolved := (exprValues?_eq_none_iff _).mp hvs
        have hc : ofClauses (c :: cs) = unresolved := by
          simp [ofClauses, Clause.isDefault, hne, hvs]
        simp [hc, hne, hr]
      | some vs =>
        have hr : c.Resolved := by
          by_contra hr
          rw [(exprValues?_eq_none_iff _).mpr hr] at hvs
          cases hvs
        rw [ofClauses_cons_values hne hvs, ← ihc, ← ihu, ← ihv]
        cases ofClauses cs <;> simp [prepend, hne, hr]

theorem mem_ofClauses_iff {cs : List Clause} {vs : List Value} (h : ofClauses cs = values vs)
    (v : Value) : v ∈ vs ↔ Match cs v := by
  induction cs generalizing vs with
  | nil =>
    obtain rfl := values.inj h
    simp [Match]
  | cons c cs ih =>
    have hall : AllResolved (c :: cs) := (ofClauses_spec _).2.2.mp ⟨vs, h⟩
    obtain ⟨⟨hne, hr⟩, hrest⟩ := List.forall_mem_cons.mp hall
    obtain ⟨us, hus⟩ : ∃ us, exprValues? c.list = some us := by
      rw [← Option.ne_none_iff_exists']
      exact fun hn => (exprValues?_eq_none_iff _).mp hn hr
    obtain ⟨ws, hws⟩ := (ofClauses_spec cs).2.2.mpr hrest
    rw [ofClauses_cons_values hne hus, hws] at h
    obtain rfl := values.inj h
    rw [List.mem_append, mem_exprValues?_iff hus, ih hws]
    simp only [Match, List.mem_cons, exists_eq_or_imp]

instance (cs : List Clause) (v : Value) : Decidable (Match cs v) :=
  inferInstanceAs (Decidable (∃ c ∈ cs, ∃ e ∈ c.list, e.HasCaseValue v))

end Cases

namespace Program

/-- The constants of a type whose values no case has. -/
def unmatched (p : Program) (t : NamedType) (cs : List Clause) : List Constant :=
  (p.constants t).filter fun c => ¬Cases.Match cs c.value

theorem coverage_of_values (p : Program) (t : NamedType) {cs : List Clause} {vs : List Value}
    (h : Cases.ofClauses cs = .values vs) :
    p.coverage t cs =
      if p.unmatched t cs = [] then .covered else .missing (p.unmatched t cs) := by
  have hf : (p.constants t).filter (!vs.contains ·.value) = p.unmatched t cs := by
    apply List.filter_congr
    intro c _
    have hmem := Cases.mem_ofClauses_iff h c.value
    simp [← hmem]
  rw [coverage, h]
  simp only [hf]
  cases p.unmatched t cs <;> simp

theorem coverage_eq_catchAll_iff (p : Program) (t : NamedType) (cs : List Clause) :
    p.coverage t cs = .catchAll ↔ Cases.DefaultFirst cs := by
  rw [← (Cases.ofClauses_spec cs).1]
  cases h : Cases.ofClauses cs with
  | values vs =>
    rw [coverage_of_values p t h]
    split <;> simp
  | catchAll | unresolved => simp [coverage, h]

theorem coverage_eq_unresolved_iff (p : Program) (t : NamedType) (cs : List Clause) :
    p.coverage t cs = .unresolved ↔ Cases.UnresolvedFirst cs := by
  rw [← (Cases.ofClauses_spec cs).2.1]
  cases h : Cases.ofClauses cs with
  | values vs =>
    rw [coverage_of_values p t h]
    split <;> simp
  | catchAll | unresolved => simp [coverage, h]

theorem coverage_eq_missing_iff (p : Program) (t : NamedType) (cs : List Clause)
    (ms : List Constant) :
    p.coverage t cs = .missing ms ↔ Cases.AllResolved cs ∧ ms ≠ [] ∧ ms = p.unmatched t cs := by
  rw [← (Cases.ofClauses_spec cs).2.2]
  cases h : Cases.ofClauses cs with
  | values vs =>
    rw [coverage_of_values p t h]
    split <;> grind
  | catchAll | unresolved => simp [coverage, h]

theorem coverage_eq_covered_iff (p : Program) (t : NamedType) (cs : List Clause) :
    p.coverage t cs = .covered ↔ Cases.AllResolved cs ∧ p.unmatched t cs = [] := by
  rw [← (Cases.ofClauses_spec cs).2.2]
  cases h : Cases.ofClauses cs with
  | values vs =>
    rw [coverage_of_values p t h]
    split <;> simp [*]
  | catchAll | unresolved => simp [coverage, h]

theorem coverage_ne_notApplicable (p : Program) (t : NamedType) (cs : List Clause) :
    p.coverage t cs ≠ .notApplicable := by
  cases h : Cases.ofClauses cs with
  | values vs =>
    rw [coverage_of_values p t h]
    split <;> simp
  | catchAll | unresolved => simp [coverage, h]

end Program

namespace Switch

/-- The tag of the switch has a declared type, and that type is marked. -/
def IsOver (p : Program) (t : NamedType) (s : Switch) : Prop :=
  ∃ tag, s.tag = some tag ∧ tag.type? = some (.named t) ∧ p.isMarkedType t = true

end Switch

namespace Program

def outcome (p : Program) (s : Switch) : Outcome :=
  ((Lookup.plain p).outcome s.tagType? s.clauses).1

theorem tagType?_asNamed?_iff (s : Switch) (t : NamedType) :
    s.tagType?.bind TypeRef.asNamed? = some t ↔
      ∃ tag, s.tag = some tag ∧ tag.type? = some (.named t) := by
  have hn (r : TypeRef) : r.asNamed? = some t ↔ r = .named t := by
    cases r <;> simp [TypeRef.asNamed?]
  simp only [Switch.tagType?, Option.bind_eq_some_iff, hn]
  simp

theorem outcome_of_isOver {p : Program} {t : NamedType} {s : Switch} (h : s.IsOver p t) :
    p.outcome s = p.coverage t s.clauses := by
  obtain ⟨tag, htag, htype, hmark⟩ := h
  have ht := (tagType?_asNamed?_iff s t).mpr ⟨tag, htag, htype⟩
  simp [outcome, Lookup.outcome, ht, Lookup.ask, Lookup.plain, hmark]

theorem outcome_of_not_isOver {p : Program} {s : Switch} (h : ∀ t, ¬s.IsOver p t) :
    p.outcome s = .notApplicable := by
  cases ht : s.tagType?.bind TypeRef.asNamed? with
  | none => simp [outcome, Lookup.outcome, ht]
  | some t =>
    obtain ⟨tag, htag, htype⟩ := (tagType?_asNamed?_iff s t).mp ht
    have hmark : p.isMarkedType t ≠ true := fun hm => h t ⟨tag, htag, htype, hm⟩
    simp [outcome, Lookup.outcome, ht, Lookup.ask, Lookup.plain, hmark]

/-- A switch that comes to anything is one over a marked type, and comes to what its clauses say
about that type. -/
theorem outcome_eq_iff {p : Program} {s : Switch} {o : Outcome} (ho : o ≠ .notApplicable) :
    p.outcome s = o ↔ ∃ t, s.IsOver p t ∧ p.coverage t s.clauses = o := by
  constructor
  · intro h
    by_cases hover : ∃ t, s.IsOver p t
    · obtain ⟨t, ht⟩ := hover
      exact ⟨t, ht, by rw [← outcome_of_isOver ht, h]⟩
    · rw [outcome_of_not_isOver (not_exists.mp hover)] at h
      exact absurd h.symm ho
  · intro hex
    obtain ⟨t, ht, hc⟩ := hex
    rw [outcome_of_isOver ht, hc]

end Program

end EnumCover
