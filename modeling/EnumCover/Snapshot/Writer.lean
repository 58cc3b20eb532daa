import EnumCover.Program.Tree

namespace EnumCover

def Position.toJson (p : Position) : Json :=
  .obj [("line", .int p.line), ("column", .int p.column)]

def Span.toJson (s : Span) : Json := .obj [("start", s.start.toJson), ("end", s.stop.toJson)]

def TypeRef.toJson (t : TypeRef) : Json := .str t.text

def Json.ofOption {α : Type} (f : α → Json) : Option α → Json
  | some a => f a
  | none => .null

def Json.tagged (kind : String) (fields : List (String × Json)) : Json :=
  .obj (("kind", .str kind) :: fields)

mutual
def Expr.toJson : Expr → Json
  | .ident name type value => .tagged "ident"
    [("name", .str name), ("type", .ofOption TypeRef.toJson type),
      ("value", .ofOption Value.toJson value)]
  | .selector qualifier name type value => .tagged "selector"
    [("qualifier", .str qualifier), ("name", .str name), ("type", .ofOption TypeRef.toJson type),
      ("value", .ofOption Value.toJson value)]
  | .paren inner => .tagged "paren" [("inner", inner.toJson)]
  | .lit kind raw type => .tagged "lit"
    [("lit", .str kind.text), ("raw", .str raw), ("type", .ofOption TypeRef.toJson type)]
  | .funcLit body => .tagged "func_lit" [("body", .arr (stmtsToJson body))]
  | .other type value children => .tagged "other"
    [("type", .ofOption TypeRef.toJson type), ("value", .ofOption Value.toJson value),
      ("children", .arr (exprsToJson children))]

def Stmt.toJson : Stmt → Json
  | .switch (.mk span init tag clauses) => .tagged "switch"
    [("span", span.toJson), ("init", optStmtToJson init), ("tag", optExprToJson tag),
      ("clauses", .arr (clausesToJson clauses))]
  | .block body => .tagged "block" [("body", .arr (stmtsToJson body))]
  | .expr e => .tagged "expr" [("expr", e.toJson)]
  | .other span => .tagged "other" [("span", span.toJson)]

def Clause.toJson : Clause → Json
  | .mk span list body =>
    .obj [("span", span.toJson), ("list", .arr (exprsToJson list)),
      ("body", .arr (stmtsToJson body))]

def optExprToJson : Option Expr → Json
  | none => .null
  | some e => e.toJson

def optStmtToJson : Option Stmt → Json
  | none => .null
  | some s => s.toJson

def exprsToJson : List Expr → List Json
  | [] => []
  | e :: es => e.toJson :: exprsToJson es

def stmtsToJson : List Stmt → List Json
  | [] => []
  | s :: ss => s.toJson :: stmtsToJson ss

def clausesToJson : List Clause → List Json
  | [] => []
  | c :: cs => c.toJson :: clausesToJson cs
end

def TypeSpec.toJson (s : TypeSpec) : Json := .obj [("name", .str s.name), ("span", s.span.toJson)]

def ConstSpec.toJson (s : ConstSpec) : Json :=
  .obj [("name", .str s.name), ("span", s.span.toJson), ("type", s.type.toJson),
    ("value", s.value.toJson)]

def Decl.toJson : Decl → Json
  | .types span specs => .tagged "type"
    [("span", span.toJson), ("specs", .arr (specs.map TypeSpec.toJson))]
  | .consts span specs => .tagged "const"
    [("span", span.toJson), ("specs", .arr (specs.map ConstSpec.toJson))]
  | .func name span body => .tagged "func"
    [("name", .str name), ("span", span.toJson), ("body", .arr (stmtsToJson body))]
  | .var span values => .tagged "var"
    [("span", span.toJson), ("values", .arr (exprsToJson values))]
  | .other span => .tagged "other" [("span", span.toJson)]

def Comment.toJson (c : Comment) : Json := .obj [("text", .str c.text), ("span", c.span.toJson)]

def SourceFile.toJson (f : SourceFile) : Json :=
  .obj [("name", .str f.name), ("comments", .arr (f.comments.map Comment.toJson)),
    ("decls", .arr (f.decls.map Decl.toJson))]

def Package.toJson (p : Package) : Json :=
  .obj [("path", .str p.path), ("initial", .bool p.initial),
    ("diagnostics", .arr (p.diagnostics.map Json.str)),
    ("files", .arr (p.files.map SourceFile.toJson))]

def Program.toJson (p : Program) : Json := .obj [("packages", .arr (p.packages.map Package.toJson))]

end EnumCover
