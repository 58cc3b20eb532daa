import EnumCover.Program.Tree

namespace EnumCover

structure Constant where
  name : String
  type : NamedType
  value : Value
  /-- Its place among the constants of the type. -/
  order : Nat
  file : String
  position : Position
  deriving DecidableEq, Repr

namespace Decl

def constsOf (t : NamedType) : Decl → List ConstSpec
  | .consts _ specs => specs.filter (·.type == .named t)
  | _ => []

end Decl

namespace Package

def constsOf (t : NamedType) (p : Package) : List (String × ConstSpec) :=
  p.files.flatMap fun f => (f.decls.flatMap (Decl.constsOf t)).map (f.name, ·)

end Package

namespace Program

/-- Every constant whose type is `t`, taken from the first package with the path of `t`. -/
def constants (p : Program) (t : NamedType) : List Constant :=
  match p.package? t.package with
  | none => []
  | some package => (package.constsOf t).zipIdx.map fun ((file, spec), order) =>
    ⟨spec.name, t, spec.value, order, file, spec.span.start⟩

end Program

end EnumCover
