import EnumCover.Proofs.Check.Agreement
import EnumCover.Proofs.Traversal.Nodes

namespace EnumCover

mutual
/-- An expression with every pair of parentheses replaced by what stands between them. -/
def Expr.eraseParens : Expr → Expr
  | .ident name type value => .ident name type value
  | .selector qualifier name type value => .selector qualifier name type value
  | .paren inner => inner.eraseParens
  | .lit kind raw type => .lit kind raw type
  | .funcLit body => .funcLit (eraseParensInStmts body)
  | .other type value children => .other type value (eraseParensInExprs children)

def Stmt.eraseParens : Stmt → Stmt
  | .switch s => .switch s.eraseParens
  | .block body => .block (eraseParensInStmts body)
  | .expr e => .expr e.eraseParens
  | .other span => .other span

def Switch.eraseParens : Switch → Switch
  | .mk span init tag clauses =>
    .mk span (eraseParensInInit init) (eraseParensInTag tag) (eraseParensInClauses clauses)

def Clause.eraseParens : Clause → Clause
  | .mk span list body => .mk span (eraseParensInExprs list) (eraseParensInStmts body)

def eraseParensInInit : Option Stmt → Option Stmt
  | none => none
  | some s => some s.eraseParens

def eraseParensInTag : Option Expr → Option Expr
  | none => none
  | some e => some e.eraseParens

def eraseParensInExprs : List Expr → List Expr
  | [] => []
  | e :: es => e.eraseParens :: eraseParensInExprs es

def eraseParensInStmts : List Stmt → List Stmt
  | [] => []
  | s :: ss => s.eraseParens :: eraseParensInStmts ss

def eraseParensInClauses : List Clause → List Clause
  | [] => []
  | c :: cs => c.eraseParens :: eraseParensInClauses cs
end

def Decl.eraseParens : Decl → Decl
  | .types span specs => .types span specs
  | .consts span specs => .consts span specs
  | .func name span body => .func name span (body.map Stmt.eraseParens)
  | .var span values => .var span (values.map Expr.eraseParens)
  | .other span => .other span

def SourceFile.eraseParens (f : SourceFile) : SourceFile :=
  { f with decls := f.decls.map Decl.eraseParens }

def Package.eraseParens (k : Package) : Package :=
  { k with files := k.files.map SourceFile.eraseParens }

def Program.eraseParens (p : Program) : Program := ⟨p.packages.map Package.eraseParens⟩

section Lists

theorem eraseParensInInit_eq (init : Option Stmt) :
    eraseParensInInit init = init.map Stmt.eraseParens := by
  cases init <;> rfl

theorem eraseParensInTag_eq (tag : Option Expr) :
    eraseParensInTag tag = tag.map Expr.eraseParens := by
  cases tag <;> rfl

theorem eraseParensInExprs_eq (es : List Expr) :
    eraseParensInExprs es = es.map Expr.eraseParens := by
  induction es with
  | nil => rfl
  | cons e es ih => rw [eraseParensInExprs, ih, List.map_cons]

theorem eraseParensInStmts_eq (ss : List Stmt) :
    eraseParensInStmts ss = ss.map Stmt.eraseParens := by
  induction ss with
  | nil => rfl
  | cons s ss ih => rw [eraseParensInStmts, ih, List.map_cons]

theorem eraseParensInClauses_eq (cs : List Clause) :
    eraseParensInClauses cs = cs.map Clause.eraseParens := by
  induction cs with
  | nil => rfl
  | cons c cs ih => rw [eraseParensInClauses, ih, List.map_cons]

end Lists

namespace Switch

variable (s : Switch)

theorem span_eraseParens : s.eraseParens.span = s.span := by
  obtain ⟨span, init, tag, clauses⟩ := s
  rfl

theorem init_eraseParens : s.eraseParens.init = s.init.map Stmt.eraseParens := by
  obtain ⟨span, init, tag, clauses⟩ := s
  exact eraseParensInInit_eq init

theorem tag_eraseParens : s.eraseParens.tag = s.tag.map Expr.eraseParens := by
  obtain ⟨span, init, tag, clauses⟩ := s
  exact eraseParensInTag_eq tag

theorem clauses_eraseParens : s.eraseParens.clauses = s.clauses.map Clause.eraseParens := by
  obtain ⟨span, init, tag, clauses⟩ := s
  exact eraseParensInClauses_eq clauses

end Switch

namespace Clause

variable (c : Clause)

theorem list_eraseParens : c.eraseParens.list = c.list.map Expr.eraseParens := by
  obtain ⟨span, list, body⟩ := c
  exact eraseParensInExprs_eq list

theorem body_eraseParens : c.eraseParens.body = c.body.map Stmt.eraseParens := by
  obtain ⟨span, list, body⟩ := c
  exact eraseParensInStmts_eq body

theorem isDefault_eraseParens : c.eraseParens.isDefault = c.isDefault := by
  rw [isDefault, isDefault, list_eraseParens, List.isEmpty_map]

end Clause

namespace Visit

def eraseParens : Visit → Visit
  | file f => file f.eraseParens
  | decl d => decl d.eraseParens
  | stmt s => stmt s.eraseParens
  | switch s => switch s.eraseParens
  | clause c => clause c.eraseParens
  | expr e => expr e.eraseParens

def IsParen (v : Visit) : Prop := ∃ inner, v = expr (.paren inner)

theorem initCount_eraseParens (v : Visit) : v.eraseParens.initCount = v.initCount := by
  cases v with
  | switch s => simp only [eraseParens, initCount, Switch.init_eraseParens, Option.length_toList,
      Option.isSome_map]
  | file | decl | stmt | clause | expr => rfl

theorem switch?_eraseParens (v : Visit) :
    v.eraseParens.switch? = v.switch?.map Switch.eraseParens := by
  cases v <;> rfl

theorem children_eraseParens {v : Visit} (h : ¬v.IsParen) :
    v.eraseParens.children = v.children.map eraseParens := by
  cases v with
  | file f => simp [eraseParens, SourceFile.eraseParens, children]
  | decl d => cases d <;> simp [eraseParens, Decl.eraseParens, children]
  | stmt s =>
    cases s <;> simp [eraseParens, Stmt.eraseParens, children, eraseParensInStmts_eq]
  | switch s =>
    simp only [eraseParens, children, Switch.init_eraseParens, Switch.tag_eraseParens,
      Switch.clauses_eraseParens, Option.toList_map, List.map_append, List.map_map]
    rfl
  | clause c =>
    simp only [eraseParens, children, Clause.list_eraseParens, Clause.body_eraseParens,
      List.map_append, List.map_map]
    rfl
  | expr e =>
    cases e with
    | paren inner => exact absurd ⟨inner, rfl⟩ h
    | _ => simp [eraseParens, Expr.eraseParens, children, eraseParensInStmts_eq,
        eraseParensInExprs_eq]

theorem switches_eraseParens (v : Visit) :
    v.eraseParens.switches = v.switches.map Switch.eraseParens := by
  induction v using children_induction with
  | step v ih =>
    by_cases h : v.IsParen
    · obtain ⟨inner, rfl⟩ := h
      exact ih (expr inner) List.mem_cons_self
    · have hsome {l : List Visit} (hl : ∀ c ∈ l, c ∈ v.children) :
          (l.map eraseParens).flatMap switches = (l.flatMap switches).map Switch.eraseParens := by
        rw [List.flatMap_map, List.map_flatMap]
        exact List.flatMap_congr fun c hc => ih c (hl c hc)
      have hself : v.eraseParens.switch?.toList = v.switch?.toList.map Switch.eraseParens := by
        rw [switch?_eraseParens, Option.toList_map]
      rw [switches_listed v.eraseParens, switches_listed v, children_eraseParens h,
        initCount_eraseParens, hself, ← List.map_take, ← List.map_drop,
        hsome fun _ => List.mem_of_mem_take, hsome fun _ => List.mem_of_mem_drop,
        List.map_append, List.map_append]

end Visit

namespace Expr

theorem type?_eraseParens : (e : Expr) → e.eraseParens.type? = e.type?
  | .paren inner => by rw [eraseParens, type?_eraseParens inner, type?]
  | .ident _ _ _ | .selector _ _ _ _ | .lit _ _ _ | .funcLit _ | .other _ _ _ => rfl

theorem matchedValue?_eraseParens : (e : Expr) → e.eraseParens.matchedValue? = e.matchedValue?
  | .paren inner => by
    rw [eraseParens, matchedValue?_eraseParens inner, matchedValue?_paren]
  | .ident _ _ _ | .selector _ _ _ _ | .lit _ _ _ | .funcLit _ | .other _ _ _ => rfl

theorem eraseParens_ne_paren (inner : Expr) : (e : Expr) → e.eraseParens ≠ .paren inner
  | .paren e => eraseParens_ne_paren inner e
  | .ident _ _ _ | .selector _ _ _ _ | .lit _ _ _ | .funcLit _ | .other _ _ _ => by
    rw [eraseParens]
    exact Expr.noConfusion

end Expr

theorem Visit.not_isParen_of_mem_walk (v : Visit) : ∀ u ∈ v.eraseParens.walk, ¬u.IsParen := by
  induction v using children_induction with
  | step v ih =>
    by_cases h : v.IsParen
    · obtain ⟨inner, rfl⟩ := h
      exact ih (expr inner) List.mem_cons_self
    · intro u hu
      rw [walk_eq, children_eraseParens h, List.mem_cons, List.mem_flatMap] at hu
      rcases hu with rfl | ⟨d, hd, hu⟩
      · rintro ⟨inner, heq⟩
        cases v with
        | expr e => exact Expr.eraseParens_ne_paren inner e (Visit.expr.inj heq)
        | file | decl | stmt | switch | clause => cases heq
      · obtain ⟨c, hc, rfl⟩ := List.mem_map.mp hd
        exact ih c hc u hu

namespace Cases

theorem exprValues?_eraseParens (es : List Expr) :
    exprValues? (es.map Expr.eraseParens) = exprValues? es := by
  induction es with
  | nil => rfl
  | cons e es ih => rw [List.map_cons, exprValues?, e.matchedValue?_eraseParens, ih, exprValues?]

theorem ofClauses_eraseParens (cs : List Clause) :
    ofClauses (cs.map Clause.eraseParens) = ofClauses cs := by
  induction cs with
  | nil => rfl
  | cons c cs ih =>
    rw [List.map_cons, ofClauses, c.isDefault_eraseParens, c.list_eraseParens,
      exprValues?_eraseParens, ih, ofClauses]

end Cases

theorem Switch.alike_eraseParens (s : Switch) : s.Alike s.eraseParens where
  start := by rw [span_eraseParens]
  tagType? := by
    rw [Switch.tagType?, Switch.tagType?, tag_eraseParens]
    cases s.tag with
    | none => rfl
    | some tag => exact tag.type?_eraseParens.symm
  cases := by rw [clauses_eraseParens, Cases.ofClauses_eraseParens]

theorem SourceFile.alike_eraseParens (f : SourceFile) :
    List.Forall₂ Switch.Alike f.switches f.eraseParens.switches := by
  have hswitches : f.eraseParens.switches = f.switches.map Switch.eraseParens :=
    (Visit.file f).switches_eraseParens
  rw [hswitches, List.forall₂_map_right_iff, List.forall₂_same]
  exact fun s _ => s.alike_eraseParens

section Declarations

theorem Decl.ends_eraseParens (d : Decl) : d.eraseParens.ends = d.ends := by
  cases d <;> rfl

theorem Decl.constsOf_eraseParens (t : NamedType) (d : Decl) :
    d.eraseParens.constsOf t = d.constsOf t := by
  cases d <;> rfl

theorem introduction?_eraseParens (name : String) (ds : List Decl) :
    introduction? name (ds.map Decl.eraseParens) = introduction? name ds := by
  induction ds with
  | nil => rfl
  | cons d ds ih =>
    cases d with
    | types span specs => simp only [List.map_cons, Decl.eraseParens, introduction?, ih]
    | consts | func | var | other => exact ih

theorem SourceFile.marks?_eraseParens (f : SourceFile) (name : String) :
    f.eraseParens.marks? name = f.marks? name := by
  have hends : f.eraseParens.ends = f.ends := by
    simp only [ends, SourceFile.eraseParens, List.flatMap_map, Decl.ends_eraseParens]
  rw [marks?, marks?, commentGroups, commentGroups, hends, SourceFile.eraseParens,
    introduction?_eraseParens]

theorem Package.constsOf_eraseParens (t : NamedType) (k : Package) :
    k.eraseParens.constsOf t = k.constsOf t := by
  simp only [constsOf, Package.eraseParens, SourceFile.eraseParens, List.flatMap_map,
    Decl.constsOf_eraseParens]

end Declarations

namespace Program

variable (p : Program)

theorem package?_eraseParens (path : String) :
    p.eraseParens.package? path = (p.package? path).map Package.eraseParens :=
  List.find?_map

theorem agreeOn_eraseParens (t : NamedType) : p.AgreeOn p.eraseParens t where
  isMarkedType := by
    rw [isMarkedType, isMarkedType, package?_eraseParens]
    cases p.package? t.package with
    | none => rfl
    | some k =>
      simp only [Option.map_some, Package.eraseParens, List.findSome?_map, Function.comp_def,
        SourceFile.marks?_eraseParens]
  constants := by
    rw [constants, constants, package?_eraseParens]
    cases p.package? t.package with
    | none => rfl
    | some k => simp only [Option.map_some, Package.constsOf_eraseParens]

theorem checkedFiles_eraseParens (ignore : List String) :
    p.eraseParens.checkedFiles ignore =
      (p.checkedFiles ignore).map SourceFile.eraseParens := by
  have hinitial : p.eraseParens.packagesToCheck =
      p.packagesToCheck.map Package.eraseParens := List.filter_map
  have hfiles (k : Package) : k.eraseParens.files = k.files.map SourceFile.eraseParens := rfl
  rw [checkedFiles, checkedFiles, hinitial, List.flatMap_map]
  simp only [hfiles, ← List.map_flatMap, List.filter_map]
  rfl

end Program

/-- Erasing all parentheses of a program, so that none is left in any of its files, does not change
the report of a check. -/
theorem parens_irrelevant (p : Program) (o : CheckOptions) :
    p.eraseParens.check o = p.check o ∧
      ∀ k ∈ p.eraseParens.packages, ∀ f ∈ k.files, ∀ inner, .expr (.paren inner) ∉ f.visits := by
  constructor
  · have hfiles : (p.eraseParens.checkedFiles o.ignore).map p.eraseParens.findings =
        (p.checkedFiles o.ignore).map p.findings := by
      rw [p.checkedFiles_eraseParens, List.map_map]
      apply List.map_congr_left
      intro f _
      have hname : f.name = f.eraseParens.name := rfl
      exact (Program.findings_congr hname f.alike_eraseParens fun s _ t _ =>
        p.agreeOn_eraseParens t).symm
    rw [Program.check_eq, Program.check_eq, hfiles]
  · intro k hk f hf inner hmem
    obtain ⟨k, -, rfl⟩ := List.mem_map.mp hk
    obtain ⟨f, -, rfl⟩ := List.mem_map.mp hf
    exact (Visit.file f).not_isParen_of_mem_walk _ hmem ⟨inner, rfl⟩

end EnumCover
