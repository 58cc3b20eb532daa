import EnumCover.Program.Literal
import EnumCover.Program.Position
import EnumCover.Program.TypeRef

namespace EnumCover

mutual
inductive Expr where
  | ident (name : String) (type : Option TypeRef) (value : Option Value)
  | selector (qualifier name : String) (type : Option TypeRef) (value : Option Value)
  | paren (inner : Expr)
  | lit (kind : LiteralKind) (raw : String) (type : Option TypeRef)
  | funcLit (body : List Stmt)
  /-- Calls, conversions, operators. -/
  | other (type : Option TypeRef) (value : Option Value) (children : List Expr)

inductive Stmt where
  | switch (s : Switch)
  | block (body : List Stmt)
  | expr (e : Expr)
  | other (span : Span)

inductive Switch where
  | mk (span : Span) (init : Option Stmt) (tag : Option Expr) (clauses : List Clause)

/-- A clause with the expressions it matches. Without any it is the default clause. -/
inductive Clause where
  | mk (span : Span) (list : List Expr) (body : List Stmt)
end

namespace Switch

def span : Switch → Span
  | mk span _ _ _ => span

def init : Switch → Option Stmt
  | mk _ init _ _ => init

def tag : Switch → Option Expr
  | mk _ _ tag _ => tag

def clauses : Switch → List Clause
  | mk _ _ _ clauses => clauses

end Switch

namespace Clause

def span : Clause → Span
  | mk span _ _ => span

def list : Clause → List Expr
  | mk _ list _ => list

def body : Clause → List Stmt
  | mk _ _ body => body

def isDefault (c : Clause) : Bool := c.list.isEmpty

end Clause

namespace Expr

def withoutParens : Expr → Expr
  | paren inner => inner.withoutParens
  | e => e

/-- The resolved type, looked up inside parentheses. -/
def type? : Expr → Option TypeRef
  | ident _ type _ | selector _ _ type _ | lit _ _ type | other type _ _ => type
  | paren inner => inner.type?
  | funcLit _ => none

def value? : Expr → Option Value
  | ident _ _ value | selector _ _ _ value | other _ value _ => value
  | paren inner => inner.value?
  | lit _ _ _ | funcLit _ => none

end Expr

structure TypeSpec where
  name : String
  span : Span
  deriving DecidableEq, Repr

structure ConstSpec where
  name : String
  span : Span
  type : TypeRef
  value : Value
  deriving DecidableEq, Repr

/-- A top-level declaration. Blocks of types and constants hold several specs. -/
inductive Decl where
  | types (span : Span) (specs : List TypeSpec)
  | consts (span : Span) (specs : List ConstSpec)
  | func (name : String) (span : Span) (body : List Stmt)
  | var (span : Span) (values : List Expr)
  | other (span : Span)

structure Comment where
  text : String
  span : Span
  deriving DecidableEq, Repr

structure SourceFile where
  name : String
  comments : List Comment
  decls : List Decl

/-- All files of one package. An initial package is one whose switches are checked; the others are
there for their declarations. -/
structure Package where
  path : String
  initial : Bool
  diagnostics : List String
  files : List SourceFile

structure Program where
  packages : List Package

namespace Program

def package? (p : Program) (path : String) : Option Package :=
  p.packages.find? (·.path == path)

def packagesToCheck (p : Program) : List Package := p.packages.filter (·.initial)

end Program

end EnumCover
