import EnumCover.Proofs.Json.Refinement
import EnumCover.Proofs.Keyed
import EnumCover.Snapshot.Reader

namespace EnumCover

theorem readExprs_eq (depth : Nat) (inside : Bool) :
    readExprs depth inside = Node.list (fun depth => Expr.read depth inside) depth := by
  funext n
  cases depth <;> simp [readExprs, Node.list]

theorem readStmts_eq (depth : Nat) (inside : Bool) :
    readStmts depth inside = Node.list (fun depth => Stmt.read depth inside) depth := by
  funext n
  cases depth <;> simp [readStmts, Node.list]

theorem readClauses_eq (depth : Nat) (inside : Bool) :
    readClauses depth inside = Node.list (fun depth => Clause.read depth inside) depth := by
  funext n
  cases depth <;> simp [readClauses, Node.list]

theorem Node.kind?_byIndex {κ : Type} {kinds : List (String × κ)} {byIndex : Bool} {n : Node}
    {k : κ} (h : n.kind? kinds byIndex = some k) : n.kind? kinds true = some k := by
  cases byIndex with
  | true => exact h
  | false =>
    cases n with
    | string l s => cases s <;> exact h
    | _ => cases h

theorem Node.variantKind_byIndex {κ : Type} {kinds : List (String × κ)} {byIndex : Bool} {n : Node}
    {k : κ} (h : n.variantKind kinds byIndex = .value k) : n.variantKind kinds true = .value k := by
  cases n with
  | array l xs stop =>
    obtain ⟨x, hx, hk⟩ := variantKind_array.mp h
    exact variantKind_array.mpr ⟨x, hx, kind?_byIndex hk⟩
  | object l ms stop =>
    obtain ⟨x, hx, hk⟩ := variantKind_object.mp h
    exact variantKind_object.mpr ⟨x, hx, kind?_byIndex hk⟩
  | _ => simp [variantKind] at h

namespace Node

theorem text_eq_value_iff {n : Node} {s : String} :
    n.text = .value s ↔ ∃ l, n = string l (some s) := by
  cases n with
  | string l t => cases t <;> simp [text]
  | _ => simp [text]

theorem flag_eq_value_iff {n : Node} {b : Bool} : n.flag = .value b ↔ ∃ l, n = bool l b := by
  cases n <;> simp [flag]

theorem coordinate_eq_value_iff {n : Node} {a : Nat} :
    n.coordinate = .value a ↔ ∃ l m, n = number l m ∧
      (m.integral && !m.negative && decimalValue m.whole < twoPow 32) ∧
        decimalValue m.whole = a := by
  cases n with
  | number l m =>
    simp only [coordinate, number.injEq]
    constructor
    · intro h
      split at h
      · rename_i hm
        cases h
        exact ⟨l, m, ⟨rfl, rfl⟩, hm, rfl⟩
      · cases h
    · rintro ⟨_, _, ⟨rfl, rfl⟩, hm, rfl⟩
      rw [if_pos hm]
  | _ => simp [coordinate]

theorem items_eq_value_iff {α : Type} {f : Node → Reading α} {n : Node} {as : List α} :
    n.items f = .value as ↔
      ∃ l xs k, n = array l xs (.closed k) ∧ Reading.all (xs.map f) = .value as := by
  cases n with
  | array l xs stop => cases stop <;> simp [items, Stop.check]
  | _ => simp [items]

end Node

theorem LiteralKind.read_eq_value_iff {inside : Bool} {n : Node} {k : LiteralKind} :
    LiteralKind.read inside n = .value k ↔ ∃ s, LiteralKind.ofText? s = some k ∧
      ((∃ l, n = .string l (some s)) ∨ ∃ l key x stop, n = .object l [(key, x)] stop ∧
        key.text = some s ∧
          ((∃ l, x = .null l) ∨ inside = true ∧ ∃ l stop, x = .object l [] stop)) := by
  unfold LiteralKind.read
  split
  · rename_i l s
    cases s with
    | none => simp
    | some s => cases hs : LiteralKind.ofText? s <;> simp [hs]
  · rename_i l key l' stop
    cases hkey : key.text with
    | none => simp [hkey]
    | some s => cases hs : LiteralKind.ofText? s <;> simp [hkey, hs]
  · rename_i l key l' stop' stop
    cases inside with
    | false => simp
    | true =>
      cases hkey : key.text with
      | none => simp [hkey]
      | some s => cases hs : LiteralKind.ofText? s <;> simp [hkey, hs]
  · rename_i hstring hnull hempty
    constructor
    · intro h
      exact absurd h (Node.refuse_ne_value n k)
    · rintro ⟨s, -, ⟨l, rfl⟩ | ⟨l, key, x, stop, rfl, -, ⟨l', rfl⟩ | ⟨-, l', stop', rfl⟩⟩⟩
      · exact (hstring _ _ rfl).elim
      · exact (hnull _ _ _ _ rfl).elim
      · exact (hempty _ _ _ _ _ rfl).elim

/-- What a part of a snapshot is read as. -/
inductive Content where
  | text
  | flag
  | coordinate
  | type
  | value
  | literalKind
  | position
  | span
  | typeSpec
  | constSpec
  | clause
  | comment
  | file
  | package
  | program
  | expr
  | stmt
  | decl
  | nullable (c : Content)
  | list (c : Content)

namespace Content

def Result : Content → Type
  | text => String
  | flag => Bool
  | coordinate => Nat
  | type => TypeRef
  | value => Value
  | literalKind => LiteralKind
  | position => Position
  | span => Span
  | typeSpec => TypeSpec
  | constSpec => ConstSpec
  | clause => Clause
  | comment => Comment
  | file => SourceFile
  | package => Package
  | program => Program
  | expr => Expr
  | stmt => Stmt
  | decl => Decl
  | nullable c => Option c.Result
  | list c => List c.Result

/-- The reader of a part that may nest so deep, inside a variant or not. -/
def read : (c : Content) → Nat → Bool → Node → Reading c.Result
  | text, _, _ => Node.text
  | flag, _, _ => Node.flag
  | coordinate, _, _ => Node.coordinate
  | type, _, _ => TypeRef.read
  | value, depth, _ => Value.read depth
  | literalKind, _, inside => LiteralKind.read inside
  | position, depth, _ => Position.read depth
  | span, depth, _ => Span.read depth
  | typeSpec, depth, _ => TypeSpec.read depth
  | constSpec, depth, _ => ConstSpec.read depth
  | clause, depth, inside => Clause.read depth inside
  | comment, depth, _ => Comment.read depth
  | file, depth, _ => SourceFile.read depth
  | package, depth, _ => Package.read depth
  | program, depth, _ => Program.read depth
  | expr, depth, inside => Expr.read depth inside
  | stmt, depth, inside => Stmt.read depth inside
  | decl, depth, _ => Decl.read depth
  | nullable c, depth, inside => Node.nullable (c.read depth inside)
  | list c, depth, inside => Node.list (fun depth => c.read depth inside) depth

def exprFields : Expr.Kind → List (String × Content)
  | .ident => [("name", text), ("type", nullable type), ("value", nullable value)]
  | .selector =>
    [("qualifier", text), ("name", text), ("type", nullable type), ("value", nullable value)]
  | .paren => [("inner", expr)]
  | .lit => [("lit", literalKind), ("raw", text), ("type", nullable type)]
  | .funcLit => [("body", list stmt)]
  | .other => [("type", nullable type), ("value", nullable value), ("children", list expr)]

def stmtFields : Stmt.Kind → List (String × Content)
  | .switch =>
    [("span", span), ("init", nullable stmt), ("tag", nullable expr), ("clauses", list clause)]
  | .block => [("body", list stmt)]
  | .expr => [("expr", expr)]
  | .other => [("span", span)]

def declFields : Decl.Kind → List (String × Content)
  | .types => [("span", span), ("specs", list typeSpec)]
  | .consts => [("span", span), ("specs", list constSpec)]
  | .func => [("name", text), ("span", span), ("body", list stmt)]
  | .var => [("span", span), ("values", list expr)]
  | .other => [("span", span)]

/-- The fields of a record or, given its kind, of a variant, and what they are read as. -/
def fields? : Content → Node → Option (List (String × Content))
  | position, _ => some [("line", coordinate), ("column", coordinate)]
  | span, _ => some [("start", position), ("end", position)]
  | typeSpec, _ => some [("name", text), ("span", span)]
  | constSpec, _ => some [("name", text), ("span", span), ("type", type), ("value", value)]
  | clause, _ => some [("span", span), ("list", list expr), ("body", list stmt)]
  | comment, _ => some [("text", text), ("span", span)]
  | file, _ => some [("name", text), ("comments", list comment), ("decls", list decl)]
  | package, _ =>
    some [("path", text), ("initial", flag), ("diagnostics", list text), ("files", list file)]
  | program, _ => some [("packages", list package)]
  | expr, n => (n.variantKind Expr.Kind.all true).toOption.map exprFields
  | stmt, n => (n.variantKind Stmt.Kind.all true).toOption.map stmtFields
  | decl, n => (n.variantKind Decl.Kind.all true).toOption.map declFields
  | _, _ => none

def tagged : Content → Bool
  | expr | stmt | decl => true
  | _ => false

def structured : Content → Bool
  | position | span | typeSpec | constSpec | clause | comment | file | package | program
  | expr | stmt | decl => true
  | _ => false

theorem nodup_fields {c : Content} {n : Node} {fields : List (String × Content)}
    (h : c.fields? n = some fields) :
    (fields.map (·.1)).Nodup ∧ (c.tagged = true → "kind" ∉ fields.map (·.1)) := by
  cases c with
  | expr =>
    obtain ⟨k, -, rfl⟩ := Option.map_eq_some_iff.mp h
    cases k <;> decide
  | stmt =>
    obtain ⟨k, -, rfl⟩ := Option.map_eq_some_iff.mp h
    cases k <;> decide
  | decl =>
    obtain ⟨k, -, rfl⟩ := Option.map_eq_some_iff.mp h
    cases k <;> decide
  | text | flag | coordinate | type | value | literalKind | nullable | list => cases h
  | _ =>
    cases h
    decide

theorem structured_of_fields? {c : Content} {n : Node} {fields : List (String × Content)}
    (h : c.fields? n = some fields) : c.structured = true := by
  cases c with
  | text | flag | coordinate | type | value | literalKind | nullable | list => cases h
  | _ => rfl

/-- Nothing nests deeper than allowed. -/
theorem read_zero {c : Content} (hs : c.structured = true) (inside : Bool) (n : Node) :
    c.read 0 inside n = n.refuse := by
  cases c with
  | text | flag | coordinate | type | value | literalKind | nullable | list => cases hs
  | _ => rfl

theorem nullable_of_ne_null {α : Type} {f : Node → Reading α} {n : Node}
    (h : ∀ l, n ≠ .null l) : n.nullable f = some <$> f n := by
  cases n with
  | null l => exact absurd rfl (h l)
  | _ => rfl

end Content

end EnumCover
