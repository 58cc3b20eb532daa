import EnumCover.Json.Parser
import EnumCover.Json.Record
import EnumCover.Program.Tree

namespace EnumCover

def Position.read : Nat → Node → Reading Position
  | 0, n => n.refuse
  | _ + 1, n => n.asRecord ["line", "column"] fun r =>
    Position.mk <$> r.required "line" Node.coordinate <*> r.required "column" Node.coordinate

def Span.read : Nat → Node → Reading Span
  | 0, n => n.refuse
  | depth + 1, n => n.asRecord ["start", "end"] fun r =>
    Span.mk <$> r.required "start" (Position.read depth) <*> r.required "end" (Position.read depth)

def TypeRef.read (n : Node) : Reading TypeRef := TypeRef.ofString <$> n.text

def Value.read (depth : Nat) (n : Node) : Reading Value :=
  (n.toJson depth).andThen fun j => match Value.ofJson? j with
    | some v => .value v
    | none => .fault n.line

/-- The kind of a literal: its name, or an object whose only key is that name and whose value says
nothing. That value is `null`; inside a variant an empty object says nothing either. -/
def LiteralKind.read (inside : Bool) (n : Node) : Reading LiteralKind :=
  let named (s : Option String) : Reading LiteralKind := match s.bind LiteralKind.ofText? with
    | some k => .value k
    | none => .fault n.line
  match n with
  | .string _ s => named s
  | .object _ [(k, .null _)] _ => named k.text
  | .object _ [(k, .object _ [] _)] _ => if inside then named k.text else n.refuse
  | _ => n.refuse

namespace Expr

inductive Kind where
  | ident
  | selector
  | paren
  | lit
  | funcLit
  | other
  deriving DecidableEq, Repr

namespace Kind

def all : List (String × Kind) :=
  [("ident", ident), ("selector", selector), ("paren", paren), ("lit", lit),
    ("func_lit", funcLit), ("other", other)]

def fields : Kind → List String
  | ident => ["name", "type", "value"]
  | selector => ["qualifier", "name", "type", "value"]
  | paren => ["inner"]
  | lit => ["lit", "raw", "type"]
  | funcLit => ["body"]
  | other => ["type", "value", "children"]

end Kind

end Expr

namespace Stmt

inductive Kind where
  | switch
  | block
  | expr
  | other
  deriving DecidableEq, Repr

namespace Kind

def all : List (String × Kind) :=
  [("switch", switch), ("block", block), ("expr", expr), ("other", other)]

def fields : Kind → List String
  | switch => ["span", "init", "tag", "clauses"]
  | block => ["body"]
  | expr => ["expr"]
  | other => ["span"]

end Kind

end Stmt

mutual
def Expr.read : Nat → Bool → Node → Reading Expr
  | 0, _, n => n.refuse
  | depth + 1, inside, n => n.asVariant (depth + 1) inside Expr.Kind.all Expr.Kind.fields fun k r =>
    let type := r.optional "type" none (Node.nullable TypeRef.read)
    let value := r.optional "value" none (Node.nullable (Value.read depth))
    match k with
    | .ident => Expr.ident <$> r.required "name" Node.text <*> type <*> value
    | .selector =>
      Expr.selector <$> r.required "qualifier" Node.text <*> r.required "name" Node.text
        <*> type <*> value
    | .paren => Expr.paren <$> r.required "inner" (Expr.read depth true)
    | .lit =>
      Expr.lit <$> r.required "lit" (LiteralKind.read true) <*> r.required "raw" Node.text <*> type
    | .funcLit => Expr.funcLit <$> r.optional "body" [] (readStmts depth true)
    | .other => Expr.other <$> type <*> value <*> r.optional "children" [] (readExprs depth true)

def Stmt.read : Nat → Bool → Node → Reading Stmt
  | 0, _, n => n.refuse
  | depth + 1, inside, n => n.asVariant (depth + 1) inside Stmt.Kind.all Stmt.Kind.fields fun k r =>
    match k with
    | .switch =>
      (fun span init tag clauses => Stmt.switch (.mk span init tag clauses))
        <$> r.required "span" (Span.read depth)
        <*> r.optional "init" none (Node.nullable (Stmt.read depth true))
        <*> r.optional "tag" none (Node.nullable (Expr.read depth true))
        <*> r.optional "clauses" [] (readClauses depth true)
    | .block => Stmt.block <$> r.optional "body" [] (readStmts depth true)
    | .expr => Stmt.expr <$> r.required "expr" (Expr.read depth true)
    | .other => Stmt.other <$> r.required "span" (Span.read depth)

def Clause.read : Nat → Bool → Node → Reading Clause
  | 0, _, n => n.refuse
  | depth + 1, inside, n => n.asRecord ["span", "list", "body"] fun r =>
    Clause.mk <$> r.required "span" (Span.read depth)
      <*> r.optional "list" [] (readExprs depth inside)
      <*> r.optional "body" [] (readStmts depth inside)

def readExprs : Nat → Bool → Node → Reading (List Expr)
  | 0, _, n => n.refuse
  | depth + 1, inside, n => n.items (Expr.read depth inside)

def readStmts : Nat → Bool → Node → Reading (List Stmt)
  | 0, _, n => n.refuse
  | depth + 1, inside, n => n.items (Stmt.read depth inside)

def readClauses : Nat → Bool → Node → Reading (List Clause)
  | 0, _, n => n.refuse
  | depth + 1, inside, n => n.items (Clause.read depth inside)
end

def TypeSpec.read : Nat → Node → Reading TypeSpec
  | 0, n => n.refuse
  | depth + 1, n => n.asRecord ["name", "span"] fun r =>
    TypeSpec.mk <$> r.required "name" Node.text <*> r.required "span" (Span.read depth)

def ConstSpec.read : Nat → Node → Reading ConstSpec
  | 0, n => n.refuse
  | depth + 1, n => n.asRecord ["name", "span", "type", "value"] fun r =>
    ConstSpec.mk <$> r.required "name" Node.text <*> r.required "span" (Span.read depth)
      <*> r.required "type" TypeRef.read <*> r.required "value" (Value.read depth)

namespace Decl

inductive Kind where
  | types
  | consts
  | func
  | var
  | other
  deriving DecidableEq, Repr

namespace Kind

def all : List (String × Kind) :=
  [("type", types), ("const", consts), ("func", func), ("var", var), ("other", other)]

def fields : Kind → List String
  | types => ["span", "specs"]
  | consts => ["span", "specs"]
  | func => ["name", "span", "body"]
  | var => ["span", "values"]
  | other => ["span"]

end Kind

def read : Nat → Node → Reading Decl
  | 0, n => n.refuse
  | depth + 1, n => n.asVariant (depth + 1) false Kind.all Kind.fields fun k r =>
    let span := r.required "span" (Span.read depth)
    match k with
    | .types => Decl.types <$> span <*> r.required "specs" (Node.list TypeSpec.read depth)
    | .consts => Decl.consts <$> span <*> r.required "specs" (Node.list ConstSpec.read depth)
    | .func =>
      Decl.func <$> r.required "name" Node.text <*> span
        <*> r.optional "body" [] (readStmts depth true)
    | .var => Decl.var <$> span <*> r.optional "values" [] (readExprs depth true)
    | .other => Decl.other <$> span

end Decl

def Comment.read : Nat → Node → Reading Comment
  | 0, n => n.refuse
  | depth + 1, n => n.asRecord ["text", "span"] fun r =>
    Comment.mk <$> r.required "text" Node.text <*> r.required "span" (Span.read depth)

def SourceFile.read : Nat → Node → Reading SourceFile
  | 0, n => n.refuse
  | depth + 1, n => n.asRecord ["name", "comments", "decls"] fun r =>
    SourceFile.mk <$> r.required "name" Node.text
      <*> r.optional "comments" [] (Node.list Comment.read depth)
      <*> r.optional "decls" [] (Node.list Decl.read depth)

def Package.read : Nat → Node → Reading Package
  | 0, n => n.refuse
  | depth + 1, n => n.asRecord ["path", "initial", "diagnostics", "files"] fun r =>
    Package.mk <$> r.required "path" Node.text
      <*> r.optional "initial" true Node.flag
      <*> r.optional "diagnostics" [] (Node.list (fun _ => Node.text) depth)
      <*> r.optional "files" [] (Node.list SourceFile.read depth)

def Program.read : Nat → Node → Reading Program
  | 0, n => n.refuse
  | depth + 1, n => n.asRecord ["packages"] fun r =>
    Program.mk <$> r.required "packages" (Node.list Package.read depth)

def readText {α : Type} (f : Nat → Node → Reading α) (text : String) : Reading α :=
  (Json.parse text).read (f Node.maxNesting)

namespace Program

/-- The program of a snapshot, or the line on which its text goes wrong. -/
def ofSnapshot (text : String) : Reading Program := readText Program.read text

end Program

end EnumCover
