import Mathlib.Logic.Relation
import EnumCover.Proofs.Coverage.Cases

namespace EnumCover

/-- Two cases match the same value, or neither of them has a known value. -/
def Expr.SameCase (e e' : Expr) : Prop := ∀ v, e.HasCaseValue v ↔ e'.HasCaseValue v

namespace Clause

/-- One change to the cases of a clause. What the clause does besides may change freely. -/
inductive Restates : Clause → Clause → Prop where
  | reorder {c d : Clause} (h : c.list.Perm d.list) : Restates c d
  | respell {c d : Clause} (left right : List Expr) {e e' : Expr} (hc : c.list = left ++ e :: right)
    (hd : d.list = left ++ e' :: right) (h : e.SameCase e') : Restates c d

/-- Some case of the clause has the value. -/
def Matches (c : Clause) (v : Value) : Prop := ∃ e ∈ c.list, e.HasCaseValue v

namespace Restates

variable {c d : Clause}

theorem list_ne_nil_iff (h : c.Restates d) : c.list ≠ [] ↔ d.list ≠ [] := by
  cases h with
  | reorder h => rw [ne_eq, ne_eq, ← List.length_eq_zero_iff, h.length_eq, List.length_eq_zero_iff]
  | respell left right hc hd h => simp [hc, hd]

theorem resolved_iff (h : c.Restates d) : c.Resolved ↔ d.Resolved := by
  cases h with
  | reorder h => exact forall_congr' fun e => by rw [h.mem_iff]
  | respell left right hc hd h =>
    have hcase := exists_congr h
    simp only [Resolved, hc, hd, List.forall_mem_append, List.forall_mem_cons, hcase]

theorem matches_iff (h : c.Restates d) (v : Value) : c.Matches v ↔ d.Matches v := by
  cases h with
  | reorder h => exact exists_congr fun e => by rw [h.mem_iff]
  | respell left right hc hd h =>
    simp only [Matches, hc, hd, List.mem_append, List.mem_cons, or_and_right, exists_or,
      exists_eq_left, h v]

end Restates

end Clause

namespace Cases

/-- One change to how the clauses of a switch are arranged or spelled. -/
inductive Rearranges : List Clause → List Clause → Prop where
  /-- The clauses change places. -/
  | clauses {cs ds : List Clause} (h : cs.Perm ds) : Rearranges cs ds
  /-- The cases of one clause change. -/
  | clause (before after : List Clause) {c d : Clause} (h : c.Restates d) :
    Rearranges (before ++ c :: after) (before ++ d :: after)

/-- Two lists of clauses match the same values, and both or neither have a value for every case and
no default clause. -/
structure SameCases (cs ds : List Clause) : Prop where
  allResolved : AllResolved cs ↔ AllResolved ds
  matches_iff : ∀ v, Match cs v ↔ Match ds v

theorem SameCases.refl (cs : List Clause) : SameCases cs cs where
  allResolved := Iff.rfl
  matches_iff _ := Iff.rfl

theorem SameCases.trans {cs ds es : List Clause} (h : SameCases cs ds) (h' : SameCases ds es) :
    SameCases cs es where
  allResolved := h.allResolved.trans h'.allResolved
  matches_iff v := (h.matches_iff v).trans (h'.matches_iff v)

theorem Rearranges.sameCases {cs ds : List Clause} (h : Rearranges cs ds) : SameCases cs ds := by
  cases h with
  | clauses h =>
    constructor
    · exact forall_congr' fun c => by rw [h.mem_iff]
    · intro v
      exact exists_congr fun c => by rw [h.mem_iff]
  | clause before after h =>
    constructor
    · simp only [AllResolved, List.forall_mem_append, List.forall_mem_cons, h.list_ne_nil_iff,
        h.resolved_iff]
    · intro v
      have hv := h.matches_iff v
      simp only [Clause.Matches] at hv
      simp only [Match, List.mem_append, List.mem_cons, or_and_right, exists_or, exists_eq_left, hv]

/-- Any number of changes. -/
def Rearranged : List Clause → List Clause → Prop := Relation.ReflTransGen Rearranges

theorem Rearranged.sameCases {cs ds : List Clause} (h : Rearranged cs ds) : SameCases cs ds := by
  induction h with
  | refl => exact .refl cs
  | tail _ step ih => exact ih.trans step.sameCases

end Cases

/-- A default clause or a case without a value stands in the way. -/
def Outcome.Abstains (o : Outcome) : Prop := o = .catchAll ∨ o = .unresolved

namespace Program

variable (p : Program) (t : NamedType)

theorem coverage_of_allResolved {cs : List Clause} (h : Cases.AllResolved cs) :
    p.coverage t cs = if p.unmatched t cs = [] then .covered else .missing (p.unmatched t cs) := by
  obtain ⟨vs, hvs⟩ := (Cases.ofClauses_spec cs).2.2.mpr h
  exact p.coverage_of_values t hvs

theorem coverage_abstains_iff (cs : List Clause) :
    (p.coverage t cs).Abstains ↔ ¬Cases.AllResolved cs := by
  have hspec := Cases.ofClauses_spec cs
  rw [Outcome.Abstains, coverage_eq_catchAll_iff, coverage_eq_unresolved_iff, ← hspec.1,
    ← hspec.2.1, ← hspec.2.2]
  cases Cases.ofClauses cs <;> simp

theorem unmatched_congr {cs ds : List Clause} (h : Cases.SameCases cs ds) :
    p.unmatched t cs = p.unmatched t ds := by
  apply List.filter_congr
  intro c _
  simp only [h.matches_iff]

theorem coverage_of_sameCases {cs ds : List Clause} (h : Cases.SameCases cs ds) :
    p.coverage t cs = p.coverage t ds ∨
      (p.coverage t cs).Abstains ∧ (p.coverage t ds).Abstains := by
  by_cases hall : Cases.AllResolved cs
  · left
    rw [coverage_of_allResolved p t hall, coverage_of_allResolved p t (h.allResolved.mp hall),
      unmatched_congr p t h]
  · right
    rw [coverage_abstains_iff, coverage_abstains_iff, ← h.allResolved]
    exact ⟨hall, hall⟩

end Program

theorem Outcome.Abstains.missingConstants_eq {o : Outcome} (h : o.Abstains) :
    o.missingConstants = [] := by
  rcases h with rfl | rfl <;> rfl

namespace Lookup

/-- A lookup that has looked at a switch over some type still says the same about that type. -/
theorem outcome_after (r : Lookup) (tagType : Option TypeRef) (cs ds : List Clause) :
    ((r.outcome tagType cs).2.outcome tagType ds).1 = (r.outcome tagType ds).1 := by
  cases ht : tagType.bind TypeRef.asNamed? with
  | none => simp only [outcome, ht]
  | some t => simp only [outcome, ht, ask_ask, ask_program]

theorem outcome_of_sameCases (r : Lookup) (tagType : Option TypeRef) {cs ds : List Clause}
    (h : Cases.SameCases cs ds) :
    (r.outcome tagType cs).1 = (r.outcome tagType ds).1 ∨
      (r.outcome tagType cs).1.Abstains ∧ (r.outcome tagType ds).1.Abstains := by
  cases ht : tagType.bind TypeRef.asNamed? with
  | none => exact .inl (by simp only [outcome, ht])
  | some t =>
    cases hmark : (r.ask t).1 with
    | false => exact .inl (by simp [outcome, ht, hmark])
    | true => simpa [outcome, ht, hmark] using Program.coverage_of_sameCases _ t h

end Lookup

/-- Any number of changes to the arrangement and the spelling of the cases leaves the missing
constants as they are, whatever the lookup remembers and whether the second switch is looked at
instead of the first or after it. The outcome itself can only change between the two reasons to say
nothing. -/
theorem missing_constants_rearranged (r : Lookup) (tagType : Option TypeRef) (cs ds : List Clause)
    (h : Cases.Rearranged cs ds) :
    (r.outcome tagType ds).1.missingConstants = (r.outcome tagType cs).1.missingConstants ∧
    ((r.outcome tagType cs).2.outcome tagType ds).1.missingConstants =
      (r.outcome tagType cs).1.missingConstants ∧
    ((r.outcome tagType cs).1 = (r.outcome tagType ds).1 ∨
      (r.outcome tagType cs).1.Abstains ∧ (r.outcome tagType ds).1.Abstains) := by
  have hsame := r.outcome_of_sameCases tagType h.sameCases
  have hmissing : (r.outcome tagType ds).1.missingConstants =
      (r.outcome tagType cs).1.missingConstants := by
    rcases hsame with heq | ⟨hcs, hds⟩
    · rw [heq]
    · rw [hcs.missingConstants_eq, hds.missingConstants_eq]
  refine ⟨hmissing, ?_, hsame⟩
  rw [r.outcome_after, hmissing]

def markedBit : Program :=
  ⟨[⟨"p", true, [], [⟨"a.go", [⟨markerText, ⟨⟨1, 1⟩, ⟨1, 18⟩⟩⟩],
    [.types ⟨⟨2, 1⟩, ⟨2, 13⟩⟩ [⟨"Bit", ⟨⟨2, 6⟩, ⟨2, 13⟩⟩⟩],
      .consts ⟨⟨3, 1⟩, ⟨6, 2⟩⟩ [⟨"Off", ⟨⟨4, 2⟩, ⟨4, 9⟩⟩, .named ⟨"p", "Bit"⟩, .int 0⟩,
        ⟨"On", ⟨⟨5, 2⟩, ⟨5, 8⟩⟩, .named ⟨"p", "Bit"⟩, .int 1⟩]]⟩]⟩]⟩

def clauseOn (line : Nat) (list : List Expr) : Clause := .mk ⟨⟨line, 1⟩, ⟨line, 9⟩⟩ list []

/-- A literal gives way to a name of the same value inside parentheses. Where a call without a value
moves to the front as well, it takes the place of the default clause as the reason to say
nothing. -/
theorem missing_constants_rearranged_reason :
    let tagType : Option TypeRef := some (.named ⟨"p", "Bit"⟩)
    let literal := clauseOn 8 [.lit .int "0x1" none]
    let name := clauseOn 8 [.paren (.ident "On" none (some (.int 1)))]
    let call := clauseOn 9 [.other none none []]
    let fallback := clauseOn 10 []
    let r := Lookup.remembering markedBit
    (r.outcome tagType [literal]).1.missingConstants.map (·.name) = ["Off"] ∧
    (r.outcome tagType [name]).1.missingConstants =
      (r.outcome tagType [literal]).1.missingConstants ∧
    (r.outcome tagType [literal, fallback, call]).1 = .catchAll ∧
    (r.outcome tagType [call, name, fallback]).1 = .unresolved ∧
    (r.outcome tagType [call, name, fallback]).1.missingConstants =
      (r.outcome tagType [literal, fallback, call]).1.missingConstants := by
  intro tagType literal name call fallback r
  have hcase : Expr.SameCase (.lit .int "0x1" none) (.paren (.ident "On" none (some (.int 1)))) := by
    intro v
    rw [Expr.hasCaseValue_iff, Expr.hasCaseValue_iff]
    exact iff_of_eq (congrArg (· = some v) (by decide))
  have hclause : literal.Restates name := .respell [] [] rfl rfl hcase
  have hsole : Cases.Rearranged [literal] [name] := .single (.clause [] [] hclause)
  have hperm : [name, fallback, call].Perm [call, name, fallback] :=
    @List.perm_middle Clause call [name, fallback] []
  have hthree : Cases.Rearranged [literal, fallback, call] [call, name, fallback] :=
    .head (.clause [] [fallback, call] hclause) (.single (.clauses hperm))
  exact ⟨by decide +kernel, (missing_constants_rearranged r tagType _ _ hsole).1, by decide +kernel,
    by decide +kernel, (missing_constants_rearranged r tagType _ _ hthree).1⟩

end EnumCover
