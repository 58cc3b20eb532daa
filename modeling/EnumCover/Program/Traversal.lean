import EnumCover.Program.Tree

namespace EnumCover

/-- A node met by a traversal. A switch is met as a statement first. -/
inductive Visit where
  | file (f : SourceFile)
  | decl (d : Decl)
  | stmt (s : Stmt)
  | switch (s : Switch)
  | clause (c : Clause)
  | expr (e : Expr)

mutual
def Expr.visits : Expr → List Visit
  | .ident name type value => [.expr (.ident name type value)]
  | .selector qualifier name type value => [.expr (.selector qualifier name type value)]
  | .lit kind raw type => [.expr (.lit kind raw type)]
  | .paren inner => .expr (.paren inner) :: inner.visits
  | .funcLit body => .expr (.funcLit body) :: visitStmts body
  | .other type value children => .expr (.other type value children) :: visitExprs children

def Stmt.visits : Stmt → List Visit
  | .switch s => .stmt (.switch s) :: s.visits
  | .block body => .stmt (.block body) :: visitStmts body
  | .expr e => .stmt (.expr e) :: e.visits
  | .other span => [.stmt (.other span)]

def Switch.visits : Switch → List Visit
  | .mk span init tag clauses =>
    .switch (.mk span init tag clauses) ::
      (visitInit init ++ visitTag tag ++ visitClauses clauses)

def Clause.visits : Clause → List Visit
  | .mk span list body => .clause (.mk span list body) :: (visitExprs list ++ visitStmts body)

def visitInit : Option Stmt → List Visit
  | none => []
  | some s => s.visits

def visitTag : Option Expr → List Visit
  | none => []
  | some e => e.visits

def visitExprs : List Expr → List Visit
  | [] => []
  | e :: es => e.visits ++ visitExprs es

def visitStmts : List Stmt → List Visit
  | [] => []
  | s :: ss => s.visits ++ visitStmts ss

def visitClauses : List Clause → List Visit
  | [] => []
  | c :: cs => c.visits ++ visitClauses cs
end

def Decl.visits (d : Decl) : List Visit :=
  .decl d :: match d with
    | .func _ _ body => visitStmts body
    | .var _ values => visitExprs values
    | .types _ _ | .consts _ _ | .other _ => []

def SourceFile.visits (f : SourceFile) : List Visit := .file f :: f.decls.flatMap Decl.visits

def Visit.switch? : Visit → Option Switch
  | switch s => some s
  | _ => none

mutual
def Expr.switches : Expr → List Switch
  | .ident _ _ _ | .selector _ _ _ _ | .lit _ _ _ => []
  | .paren inner => inner.switches
  | .funcLit body => switchesOfStmts body
  | .other _ _ children => switchesOfExprs children

def Stmt.switches : Stmt → List Switch
  | .switch s => s.switches
  | .block body => switchesOfStmts body
  | .expr e => e.switches
  | .other _ => []

def Switch.switches : Switch → List Switch
  | .mk span init tag clauses =>
    switchesOfInit init ++
      .mk span init tag clauses :: (switchesOfTag tag ++ switchesOfClauses clauses)

def Clause.switches : Clause → List Switch
  | .mk _ list body => switchesOfExprs list ++ switchesOfStmts body

def switchesOfInit : Option Stmt → List Switch
  | none => []
  | some s => s.switches

def switchesOfTag : Option Expr → List Switch
  | none => []
  | some e => e.switches

def switchesOfExprs : List Expr → List Switch
  | [] => []
  | e :: es => e.switches ++ switchesOfExprs es

def switchesOfStmts : List Stmt → List Switch
  | [] => []
  | s :: ss => s.switches ++ switchesOfStmts ss

def switchesOfClauses : List Clause → List Switch
  | [] => []
  | c :: cs => c.switches ++ switchesOfClauses cs
end

def Decl.switches : Decl → List Switch
  | .func _ _ body => switchesOfStmts body
  | .var _ values => switchesOfExprs values
  | .types _ _ | .consts _ _ | .other _ => []

/-- The switches of a file in the order of analysis. -/
def SourceFile.switches (f : SourceFile) : List Switch := f.decls.flatMap Decl.switches

end EnumCover
