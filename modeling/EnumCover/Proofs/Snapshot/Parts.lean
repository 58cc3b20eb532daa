import EnumCover.Proofs.Snapshot.Schema
import EnumCover.Snapshot.Writer

namespace EnumCover

open Reading (Le IsValue)

namespace Expr

def kind : Expr → Kind
  | ident _ _ _ => .ident
  | selector _ _ _ _ => .selector
  | paren _ => .paren
  | lit _ _ _ => .lit
  | funcLit _ => .funcLit
  | other _ _ _ => .other

def Kind.name : Kind → String
  | .ident => "ident"
  | .selector => "selector"
  | .paren => "paren"
  | .lit => "lit"
  | .funcLit => "func_lit"
  | .other => "other"

theorem Kind.lookup_name (k : Kind) : Kind.all.lookup k.name = some k := by
  cases k <;> rfl

end Expr

namespace Stmt

def kind : Stmt → Kind
  | switch _ => .switch
  | block _ => .block
  | expr _ => .expr
  | other _ => .other

def Kind.name : Kind → String
  | .switch => "switch"
  | .block => "block"
  | .expr => "expr"
  | .other => "other"

theorem Kind.lookup_name (k : Kind) : Kind.all.lookup k.name = some k := by
  cases k <;> rfl

end Stmt

namespace Decl

def kind : Decl → Kind
  | types _ _ => .types
  | consts _ _ => .consts
  | func _ _ _ => .func
  | var _ _ => .var
  | other _ => .other

def Kind.name : Kind → String
  | .types => "type"
  | .consts => "const"
  | .func => "func"
  | .var => "var"
  | .other => "other"

theorem Kind.lookup_name (k : Kind) : Kind.all.lookup k.name = some k := by
  cases k <;> rfl

end Decl

namespace Content

/-- What stands for a field that is left out. -/
def default? : (c : Content) → Option c.Result
  | flag => some true
  | nullable _ => some none
  | list _ => some []
  | _ => none

/-- A field of a record or variant, and whether it may be left out. -/
structure Part where
  name : String
  content : Content
  value : content.Result
  optional : Bool

namespace Part

def Reads (depth : Nat) (inside : Bool) (r : Record) (p : Part) : Prop :=
  match r.get? p.name with
  | some n => p.content.read depth inside n = .value p.value
  | none => p.optional = true ∧ p.content.default? = some p.value

end Part

def exprParts : Expr → List Part
  | .ident name t v =>
    [⟨"name", text, name, false⟩, ⟨"type", nullable type, t, true⟩,
      ⟨"value", nullable value, v, true⟩]
  | .selector qualifier name t v =>
    [⟨"qualifier", text, qualifier, false⟩, ⟨"name", text, name, false⟩,
      ⟨"type", nullable type, t, true⟩, ⟨"value", nullable value, v, true⟩]
  | .paren inner => [⟨"inner", expr, inner, false⟩]
  | .lit kind raw t =>
    [⟨"lit", literalKind, kind, false⟩, ⟨"raw", text, raw, false⟩, ⟨"type", nullable type, t, true⟩]
  | .funcLit body => [⟨"body", list stmt, body, true⟩]
  | .other t v children =>
    [⟨"type", nullable type, t, true⟩, ⟨"value", nullable value, v, true⟩,
      ⟨"children", list expr, children, true⟩]

def stmtParts : Stmt → List Part
  | .switch (.mk s init tag clauses) =>
    [⟨"span", span, s, false⟩, ⟨"init", nullable stmt, init, true⟩,
      ⟨"tag", nullable expr, tag, true⟩, ⟨"clauses", list clause, clauses, true⟩]
  | .block body => [⟨"body", list stmt, body, true⟩]
  | .expr e => [⟨"expr", expr, e, false⟩]
  | .other s => [⟨"span", span, s, false⟩]

def declParts : Decl → List Part
  | .types s specs => [⟨"span", span, s, false⟩, ⟨"specs", list typeSpec, specs, false⟩]
  | .consts s specs => [⟨"span", span, s, false⟩, ⟨"specs", list constSpec, specs, false⟩]
  | .func name s body =>
    [⟨"name", text, name, false⟩, ⟨"span", span, s, false⟩, ⟨"body", list stmt, body, true⟩]
  | .var s values => [⟨"span", span, s, false⟩, ⟨"values", list expr, values, true⟩]
  | .other s => [⟨"span", span, s, false⟩]

/-- The fields of a record or variant in the order in which they are written. -/
def parts : (c : Content) → c.Result → List Part
  | position, (p : Position) =>
    [⟨"line", coordinate, p.line, false⟩, ⟨"column", coordinate, p.column, false⟩]
  | span, (s : Span) => [⟨"start", position, s.start, false⟩, ⟨"end", position, s.stop, false⟩]
  | typeSpec, (s : TypeSpec) => [⟨"name", text, s.name, false⟩, ⟨"span", span, s.span, false⟩]
  | constSpec, (s : ConstSpec) =>
    [⟨"name", text, s.name, false⟩, ⟨"span", span, s.span, false⟩, ⟨"type", type, s.type, false⟩,
      ⟨"value", value, s.value, false⟩]
  | clause, (c : Clause) =>
    [⟨"span", span, c.span, false⟩, ⟨"list", list expr, c.list, true⟩,
      ⟨"body", list stmt, c.body, true⟩]
  | comment, (c : Comment) => [⟨"text", text, c.text, false⟩, ⟨"span", span, c.span, false⟩]
  | file, (f : SourceFile) =>
    [⟨"name", text, f.name, false⟩, ⟨"comments", list comment, f.comments, true⟩,
      ⟨"decls", list decl, f.decls, true⟩]
  | package, (p : Package) =>
    [⟨"path", text, p.path, false⟩, ⟨"initial", flag, p.initial, true⟩,
      ⟨"diagnostics", list text, p.diagnostics, true⟩, ⟨"files", list file, p.files, true⟩]
  | program, (p : Program) => [⟨"packages", list package, p.packages, false⟩]
  | expr, e => exprParts e
  | stmt, s => stmtParts s
  | decl, d => declParts d
  | _, _ => []

def toJson : (c : Content) → c.Result → Json
  | text, s => .str s
  | flag, b => .bool b
  | coordinate, (n : Nat) => .int n
  | type, t => TypeRef.toJson t
  | value, v => Value.toJson v
  | literalKind, k => .str (LiteralKind.text k)
  | position, p => Position.toJson p
  | span, s => Span.toJson s
  | typeSpec, s => TypeSpec.toJson s
  | constSpec, s => ConstSpec.toJson s
  | clause, c => Clause.toJson c
  | comment, c => Comment.toJson c
  | file, f => SourceFile.toJson f
  | package, p => Package.toJson p
  | program, p => Program.toJson p
  | expr, e => Expr.toJson e
  | stmt, s => Stmt.toJson s
  | decl, d => Decl.toJson d
  | nullable c, o => Json.ofOption c.toJson o
  | list c, as => .arr (List.map c.toJson as)

theorem reads_required (c : Content) {depth : Nat} {inside : Bool} {r : Record} {name : String}
    {a : c.Result} :
    r.required name (c.read depth inside) = .value a ↔
      Part.Reads depth inside r ⟨name, c, a, false⟩ := by
  cases h : r.get? name <;> simp [Record.required, Part.Reads, h]

theorem reads_optional (c : Content) {depth : Nat} {inside : Bool} {r : Record} {name : String}
    {a d : c.Result} (hd : c.default? = some d) :
    r.optional name d (c.read depth inside) = .value a ↔
      Part.Reads depth inside r ⟨name, c, a, true⟩ := by
  cases h : r.get? name <;> simp [Record.optional, Part.Reads, h, hd]

section Constructors

variable {α β γ δ ε : Type} {x : Reading α} {y : Reading β} {z : Reading γ} {w : Reading δ}
  {a : α} {b : β} {c : γ} {d : δ} {P : Part → Prop} {p q r s : Part}

theorem map_iff {k : α → ε} (hk : ∀ {a a'}, k a = k a' → a = a') (hx : x = .value a ↔ P p) :
    k <$> x = .value (k a) ↔ ∀ o ∈ [p], P o := by
  rw [Reading.map_eq_value_iff, List.forall_mem_singleton, ← hx]
  constructor
  · rintro ⟨a', rfl, he⟩
    rw [hk he]
  · exact fun hx => ⟨a, hx, rfl⟩

theorem map_ap_iff {k : α → β → ε} (hk : ∀ {a b a' b'}, k a b = k a' b' → a = a' ∧ b = b')
    (hx : x = .value a ↔ P p) (hy : y = .value b ↔ P q) :
    k <$> x <*> y = .value (k a b) ↔ ∀ o ∈ [p, q], P o := by
  have hparts : (∀ o ∈ [p, q], P o) ↔ x = .value a ∧ y = .value b := by simp [hx, hy]
  simp only [hparts, Reading.ap_eq_value_iff, Reading.map_eq_value_iff]
  constructor
  · rintro ⟨_, b', ⟨a', ha, rfl⟩, hb, he⟩
    obtain ⟨rfl, rfl⟩ := hk he
    exact ⟨ha, hb⟩
  · rintro ⟨ha, hb⟩
    exact ⟨_, b, ⟨a, ha, rfl⟩, hb, rfl⟩

theorem map_ap_ap_iff {k : α → β → γ → ε}
    (hk : ∀ {a b c a' b' c'}, k a b c = k a' b' c' → a = a' ∧ b = b' ∧ c = c')
    (hx : x = .value a ↔ P p) (hy : y = .value b ↔ P q) (hz : z = .value c ↔ P r) :
    k <$> x <*> y <*> z = .value (k a b c) ↔ ∀ o ∈ [p, q, r], P o := by
  have hparts : (∀ o ∈ [p, q, r], P o) ↔ x = .value a ∧ y = .value b ∧ z = .value c := by
    simp [hx, hy, hz]
  simp only [hparts, Reading.ap_eq_value_iff, Reading.map_eq_value_iff]
  constructor
  · rintro ⟨_, c', ⟨_, b', ⟨a', ha, rfl⟩, hb, rfl⟩, hc, he⟩
    obtain ⟨rfl, rfl, rfl⟩ := hk he
    exact ⟨ha, hb, hc⟩
  · rintro ⟨ha, hb, hc⟩
    exact ⟨_, c, ⟨_, b, ⟨a, ha, rfl⟩, hb, rfl⟩, hc, rfl⟩

theorem map_ap_ap_ap_iff {k : α → β → γ → δ → ε}
    (hk : ∀ {a b c d a' b' c' d'}, k a b c d = k a' b' c' d' → a = a' ∧ b = b' ∧ c = c' ∧ d = d')
    (hx : x = .value a ↔ P p) (hy : y = .value b ↔ P q) (hz : z = .value c ↔ P r)
    (hw : w = .value d ↔ P s) :
    k <$> x <*> y <*> z <*> w = .value (k a b c d) ↔ ∀ o ∈ [p, q, r, s], P o := by
  have hparts : (∀ o ∈ [p, q, r, s], P o) ↔
      x = .value a ∧ y = .value b ∧ z = .value c ∧ w = .value d := by
    simp [hx, hy, hz, hw]
  simp only [hparts, Reading.ap_eq_value_iff, Reading.map_eq_value_iff]
  constructor
  · rintro ⟨_, d', ⟨_, c', ⟨_, b', ⟨a', ha, rfl⟩, hb, rfl⟩, hc, rfl⟩, hd, he⟩
    obtain ⟨rfl, rfl, rfl, rfl⟩ := hk he
    exact ⟨ha, hb, hc, hd⟩
  · rintro ⟨ha, hb, hc, hd⟩
    exact ⟨_, d, ⟨_, c, ⟨_, b, ⟨a, ha, rfl⟩, hb, rfl⟩, hc, rfl⟩, hd, rfl⟩

end Constructors

/-- A record is read from its fields, each under its name. -/
theorem read_record_iff {c : Content} (hs : c.structured = true) (htag : c.tagged = false)
    {depth : Nat} {inside : Bool} {n : Node} {a : c.Result} :
    c.read (depth + 1) inside n = .value a ↔
      ∃ r, n.recordOf? ((c.parts a).map (·.name)) = some r ∧
        ∀ p ∈ c.parts a, p.Reads depth inside r := by
  cases c with
  | position =>
    obtain ⟨line, column⟩ := a
    rw [Content.read, Position.read]
    exact Node.asRecord_eq_value_iff_of_body fun r =>
      map_ap_iff Position.mk.inj (reads_required .coordinate) (reads_required .coordinate)
  | span =>
    obtain ⟨start, stop⟩ := a
    rw [Content.read, Span.read]
    exact Node.asRecord_eq_value_iff_of_body fun r =>
      map_ap_iff Span.mk.inj (reads_required .position) (reads_required .position)
  | typeSpec =>
    obtain ⟨name, span⟩ := a
    rw [Content.read, TypeSpec.read]
    exact Node.asRecord_eq_value_iff_of_body fun r =>
      map_ap_iff TypeSpec.mk.inj (reads_required .text) (reads_required .span)
  | constSpec =>
    obtain ⟨name, span, type, value⟩ := a
    rw [Content.read, ConstSpec.read]
    exact Node.asRecord_eq_value_iff_of_body fun r =>
      map_ap_ap_ap_iff ConstSpec.mk.inj (reads_required .text) (reads_required .span)
        (reads_required .type) (reads_required .value)
  | clause =>
    obtain ⟨span, list, body⟩ := a
    rw [Content.read, Clause.read]
    simp only [readExprs_eq, readStmts_eq]
    exact Node.asRecord_eq_value_iff_of_body fun r =>
      map_ap_ap_iff Clause.mk.inj (reads_required .span) (reads_optional (.list .expr) rfl)
        (reads_optional (.list .stmt) rfl)
  | comment =>
    obtain ⟨text, span⟩ := a
    rw [Content.read, Comment.read]
    exact Node.asRecord_eq_value_iff_of_body fun r =>
      map_ap_iff Comment.mk.inj (reads_required .text) (reads_required .span)
  | file =>
    obtain ⟨name, comments, decls⟩ := a
    rw [Content.read, SourceFile.read]
    exact Node.asRecord_eq_value_iff_of_body fun r =>
      map_ap_ap_iff SourceFile.mk.inj (reads_required .text) (reads_optional (.list .comment) rfl)
        (reads_optional (.list .decl) rfl)
  | package =>
    obtain ⟨path, initial, diagnostics, files⟩ := a
    rw [Content.read, Package.read]
    exact Node.asRecord_eq_value_iff_of_body fun r =>
      map_ap_ap_ap_iff Package.mk.inj (reads_required .text) (reads_optional .flag rfl)
        (reads_optional (.list .text) rfl) (reads_optional (.list .file) rfl)
  | program =>
    obtain ⟨packages⟩ := a
    rw [Content.read, Program.read]
    exact Node.asRecord_eq_value_iff_of_body fun r =>
      map_iff Program.mk.inj (reads_required (.list .package))
  | expr | stmt | decl => cases htag
  | _ => cases hs

theorem read_expr_iff {depth : Nat} {inside : Bool} {n : Node} {e : Expr} :
    Expr.read (depth + 1) inside n = .value e ↔
      n.variantKind Expr.Kind.all inside = .value e.kind ∧
        (inside = false → IsValue (n.toJson (depth + 1))) ∧
          ∃ r, n.withoutKind.recordOf? ((exprParts e).map (·.name)) = some r ∧
            ∀ p ∈ exprParts e, p.Reads depth true r := by
  rw [Expr.read]
  simp only [readExprs_eq, readStmts_eq]
  refine Node.asVariant_eq_value_iff_of_body (fun k r => ?_) (by cases e <;> rfl)
  -- a kind only gives expressions of that kind, so the two are split together
  cases k with
  | ident =>
    cases e with
    | ident name type value =>
      refine Iff.trans ?_ (and_iff_right rfl).symm
      exact map_ap_ap_iff Expr.ident.inj (reads_required .text)
        (reads_optional (.nullable .type) rfl) (reads_optional (.nullable .value) rfl)
    | _ => simp [Expr.kind]
  | selector =>
    cases e with
    | selector qualifier name type value =>
      refine Iff.trans ?_ (and_iff_right rfl).symm
      exact map_ap_ap_ap_iff Expr.selector.inj (reads_required .text) (reads_required .text)
        (reads_optional (.nullable .type) rfl) (reads_optional (.nullable .value) rfl)
    | _ => simp [Expr.kind]
  | paren =>
    cases e with
    | paren inner =>
      refine Iff.trans ?_ (and_iff_right rfl).symm
      exact map_iff Expr.paren.inj (reads_required .expr)
    | _ => simp [Expr.kind]
  | lit =>
    cases e with
    | lit kind raw type =>
      refine Iff.trans ?_ (and_iff_right rfl).symm
      exact map_ap_ap_iff Expr.lit.inj (reads_required .literalKind) (reads_required .text)
        (reads_optional (.nullable .type) rfl)
    | _ => simp [Expr.kind]
  | funcLit =>
    cases e with
    | funcLit body =>
      refine Iff.trans ?_ (and_iff_right rfl).symm
      exact map_iff Expr.funcLit.inj (reads_optional (.list .stmt) rfl)
    | _ => simp [Expr.kind]
  | other =>
    cases e with
    | other type value children =>
      refine Iff.trans ?_ (and_iff_right rfl).symm
      exact map_ap_ap_iff Expr.other.inj (reads_optional (.nullable .type) rfl)
        (reads_optional (.nullable .value) rfl) (reads_optional (.list .expr) rfl)
    | _ => simp [Expr.kind]

theorem read_stmt_iff {depth : Nat} {inside : Bool} {n : Node} {s : Stmt} :
    Stmt.read (depth + 1) inside n = .value s ↔
      n.variantKind Stmt.Kind.all inside = .value s.kind ∧
        (inside = false → IsValue (n.toJson (depth + 1))) ∧
          ∃ r, n.withoutKind.recordOf? ((stmtParts s).map (·.name)) = some r ∧
            ∀ p ∈ stmtParts s, p.Reads depth true r := by
  rw [Stmt.read]
  simp only [readStmts_eq, readClauses_eq]
  have hnames : s.kind.fields = (stmtParts s).map (·.name) := by
    rcases s with ⟨⟨⟩⟩ | _ | _ | _ <;> rfl
  refine Node.asVariant_eq_value_iff_of_body (fun k r => ?_) hnames
  cases k with
  | switch =>
    cases s with
    | switch sw =>
      obtain ⟨span, init, tag, clauses⟩ := sw
      refine Iff.trans ?_ (and_iff_right rfl).symm
      exact map_ap_ap_ap_iff (fun h => Switch.mk.inj (Stmt.switch.inj h)) (reads_required .span)
        (reads_optional (.nullable .stmt) rfl) (reads_optional (.nullable .expr) rfl)
        (reads_optional (.list .clause) rfl)
    | _ => simp [Stmt.kind]
  | block =>
    cases s with
    | block body =>
      refine Iff.trans ?_ (and_iff_right rfl).symm
      exact map_iff Stmt.block.inj (reads_optional (.list .stmt) rfl)
    | _ => simp [Stmt.kind]
  | expr =>
    cases s with
    | expr e =>
      refine Iff.trans ?_ (and_iff_right rfl).symm
      exact map_iff Stmt.expr.inj (reads_required .expr)
    | _ => simp [Stmt.kind]
  | other =>
    cases s with
    | other span =>
      refine Iff.trans ?_ (and_iff_right rfl).symm
      exact map_iff Stmt.other.inj (reads_required .span)
    | _ => simp [Stmt.kind]

theorem read_decl_iff {depth : Nat} {n : Node} {d : Decl} :
    Decl.read (depth + 1) n = .value d ↔
      n.variantKind Decl.Kind.all false = .value d.kind ∧ IsValue (n.toJson (depth + 1)) ∧
        ∃ r, n.withoutKind.recordOf? ((declParts d).map (·.name)) = some r ∧
          ∀ p ∈ declParts d, p.Reads depth true r := by
  have hjson : (false = false → IsValue (n.toJson (depth + 1))) ↔
      IsValue (n.toJson (depth + 1)) := by simp
  rw [Decl.read]
  simp only [readExprs_eq, readStmts_eq]
  rw [← hjson]
  refine Node.asVariant_eq_value_iff_of_body (fun k r => ?_) (by cases d <;> rfl)
  cases k with
  | types =>
    cases d with
    | types span specs =>
      refine Iff.trans ?_ (and_iff_right rfl).symm
      exact map_ap_iff Decl.types.inj (reads_required .span) (reads_required (.list .typeSpec))
    | _ => simp [Decl.kind]
  | consts =>
    cases d with
    | consts span specs =>
      refine Iff.trans ?_ (and_iff_right rfl).symm
      exact map_ap_iff Decl.consts.inj (reads_required .span) (reads_required (.list .constSpec))
    | _ => simp [Decl.kind]
  | func =>
    cases d with
    | func name span body =>
      refine Iff.trans ?_ (and_iff_right rfl).symm
      exact map_ap_ap_iff Decl.func.inj (reads_required .text) (reads_required .span)
        (reads_optional (.list .stmt) rfl)
    | _ => simp [Decl.kind]
  | var =>
    cases d with
    | var span values =>
      refine Iff.trans ?_ (and_iff_right rfl).symm
      exact map_ap_iff Decl.var.inj (reads_required .span) (reads_optional (.list .expr) rfl)
    | _ => simp [Decl.kind]
  | other =>
    cases d with
    | other span =>
      refine Iff.trans ?_ (and_iff_right rfl).symm
      exact map_iff Decl.other.inj (reads_required .span)
    | _ => simp [Decl.kind]

/-- The node names the kind of a variant. A record has no kind. -/
def KindNamed : (c : Content) → c.Result → Bool → Node → Prop
  | expr, (e : Expr), inside, n => n.variantKind Expr.Kind.all inside = .value e.kind
  | stmt, (s : Stmt), inside, n => n.variantKind Stmt.Kind.all inside = .value s.kind
  | decl, (d : Decl), _, n => n.variantKind Decl.Kind.all false = .value d.kind
  | _, _, _, _ => True

/-- Whether all parts of a variant must have a value, because it is not inside another one. -/
def outermost : Content → Bool → Bool
  | expr, inside | stmt, inside => !inside
  | decl, _ => true
  | _, _ => false

def body (c : Content) (n : Node) : Node := if c.tagged then n.withoutKind else n

/-- A record or variant is read from its kind and from its fields, each under its name. -/
theorem read_structured_iff {c : Content} (hs : c.structured = true) {depth : Nat} {inside : Bool}
    {n : Node} {a : c.Result} :
    c.read (depth + 1) inside n = .value a ↔
      c.KindNamed a inside n ∧ (c.outermost inside = true → IsValue (n.toJson (depth + 1))) ∧
        ∃ r, (c.body n).recordOf? ((c.parts a).map (·.name)) = some r ∧
          ∀ p ∈ c.parts a, p.Reads depth (c.tagged || inside) r := by
  cases c with
  | expr =>
    refine read_expr_iff.trans (and_congr_right fun _ => and_congr_left fun _ => ?_)
    simp [outermost]
  | stmt =>
    refine read_stmt_iff.trans (and_congr_right fun _ => and_congr_left fun _ => ?_)
    simp [outermost]
  | decl =>
    refine read_decl_iff.trans (and_congr_right fun _ => and_congr_left fun _ => ?_)
    simp [outermost]
  | text | flag | coordinate | type | value | literalKind | nullable | list => cases hs
  | _ => exact (read_record_iff hs rfl).trans (by simp [KindNamed, outermost]; rfl)

theorem fields?_eq {c : Content} (hs : c.structured = true) {depth : Nat} {inside : Bool}
    {n : Node} {a : c.Result} (h : c.read (depth + 1) inside n = .value a) :
    c.fields? n = some ((c.parts a).map fun p => (p.name, p.content)) := by
  obtain ⟨hkind, -⟩ := (read_structured_iff hs).mp h
  cases c with
  | expr =>
    rw [fields?, Node.variantKind_byIndex hkind]
    cases a <;> rfl
  | stmt =>
    rw [fields?, Node.variantKind_byIndex hkind]
    rcases a with ⟨⟨⟩⟩ | _ | _ | _ <;> rfl
  | decl =>
    rw [fields?, Node.variantKind_byIndex hkind]
    cases a <;> rfl
  | text | flag | coordinate | type | value | literalKind | nullable | list => cases hs
  | _ => rfl

theorem exprsToJson_eq (es : List Expr) : exprsToJson es = es.map Expr.toJson := by
  induction es with
  | nil => rfl
  | cons e es ih => simp [exprsToJson, ih]

theorem stmtsToJson_eq (ss : List Stmt) : stmtsToJson ss = ss.map Stmt.toJson := by
  induction ss with
  | nil => rfl
  | cons s ss ih => simp [stmtsToJson, ih]

theorem clausesToJson_eq (cs : List Clause) : clausesToJson cs = cs.map Clause.toJson := by
  induction cs with
  | nil => rfl
  | cons c cs ih => simp [clausesToJson, ih]

theorem optExprToJson_eq (o : Option Expr) : optExprToJson o = Json.ofOption Expr.toJson o := by
  cases o <;> rfl

theorem optStmtToJson_eq (o : Option Stmt) : optStmtToJson o = Json.ofOption Stmt.toJson o := by
  cases o <;> rfl

def kindMember : (c : Content) → c.Result → List (String × Json)
  | expr, (e : Expr) => [("kind", .str e.kind.name)]
  | stmt, (s : Stmt) => [("kind", .str s.kind.name)]
  | decl, (d : Decl) => [("kind", .str d.kind.name)]
  | _, _ => []

def Part.member (p : Part) : String × Json := (p.name, p.content.toJson p.value)

/-- A record or variant is written with its fields in order, a kind before them. -/
theorem toJson_eq_obj {c : Content} (hs : c.structured = true) (a : c.Result) :
    c.toJson a = .obj (c.kindMember a ++ (c.parts a).map Part.member) := by
  cases c with
  | clause =>
    obtain ⟨span, list, body⟩ := a
    simp only [toJson, Clause.toJson, exprsToJson_eq, stmtsToJson_eq]
    rfl
  | expr =>
    cases a <;> simp only [toJson, Expr.toJson, exprsToJson_eq, stmtsToJson_eq] <;> rfl
  | stmt =>
    cases a with
    | switch s =>
      obtain ⟨span, init, tag, clauses⟩ := s
      simp only [toJson, Stmt.toJson, clausesToJson_eq, optExprToJson_eq, optStmtToJson_eq]
      rfl
    | block body =>
      simp only [toJson, Stmt.toJson, stmtsToJson_eq]
      rfl
    | expr e =>
      simp only [toJson, Stmt.toJson]
      rfl
    | other span =>
      simp only [toJson, Stmt.toJson]
      rfl
  | decl =>
    cases a <;> simp only [toJson, Decl.toJson, exprsToJson_eq, stmtsToJson_eq] <;> rfl
  | text | flag | coordinate | type | value | literalKind | nullable | list => cases hs
  | _ => rfl

end Content

end EnumCover
