import EnumCover.Comments.Marker
import EnumCover.Coverage.Constants

namespace EnumCover

inductive Outcome where
  | notApplicable
  | catchAll
  | unresolved
  | covered
  | missing (constants : List Constant)
  deriving DecidableEq, Repr

namespace Outcome

def missingConstants : Outcome → List Constant
  | missing cs => cs
  | _ => []

end Outcome

namespace Expr

/-- The value that a case matches: that of a name, or of a literal. -/
def matchedValue? (e : Expr) : Option Value :=
  match e.withoutParens with
  | .ident _ _ value | .selector _ _ _ value => value
  | .lit kind raw _ => Literal.value? kind raw
  | .paren _ | .funcLit _ | .other _ _ _ => none

end Expr

/-- The values of the cases before the first default clause or case without a value. -/
inductive Cases where
  | catchAll
  | unresolved
  | values (vs : List Value)
  deriving DecidableEq, Repr

namespace Cases

def exprValues? : List Expr → Option (List Value)
  | [] => some []
  | e :: es => e.matchedValue?.bind fun v => (exprValues? es).map (v :: ·)

/-- Looks through the clauses in order and ends at the first that decides. -/
def ofClauses : List Clause → Cases
  | [] => values []
  | c :: cs =>
    if c.isDefault then catchAll
    else match exprValues? c.list with
      | none => unresolved
      | some vs => match ofClauses cs with
        | values ws => values (vs ++ ws)
        | found => found

end Cases

def Program.coverage (p : Program) (t : NamedType) (clauses : List Clause) : Outcome :=
  match Cases.ofClauses clauses with
  | .catchAll => .catchAll
  | .unresolved => .unresolved
  | .values used =>
    match (p.constants t).filter (!used.contains ·.value) with
    | [] => .covered
    | missing => .missing missing

namespace Lookup

def outcome (r : Lookup) (tagType : Option TypeRef) (clauses : List Clause) :
    Outcome × Lookup :=
  match tagType.bind TypeRef.asNamed? with
  | none => (.notApplicable, r)
  | some t =>
    let (exhaustive, r) := r.ask t
    (if exhaustive then r.program.coverage t clauses else .notApplicable, r)

end Lookup

namespace Switch

def tagType? (s : Switch) : Option TypeRef := s.tag.bind Expr.type?

end Switch

end EnumCover
