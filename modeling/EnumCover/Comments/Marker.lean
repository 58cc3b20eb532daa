import EnumCover.Comments.Group

namespace EnumCover

def markerText : String := "//exhaustive-enum"

namespace Comment

/-- Carriage returns at the end do not matter. -/
def isMarker (c : Comment) : Bool :=
  (c.text.toList.reverse.dropWhile (· == '\r')).reverse == markerText.toList

end Comment

namespace CommentGroup

def isMarked (g : CommentGroup) : Bool := g.comments.any Comment.isMarker

/-- Whether a group marks a type that is declared by itself, or one of several in a block. The
comment before a block does not reach the types in it, even if it also touches the first. -/
def marks (decl spec : Span) (alone : Bool) (g : CommentGroup) : Bool :=
  g.isMarked &&
    if alone then g.belongsTo decl || g.belongsTo spec
    else g.belongsTo spec && !g.belongsTo decl

end CommentGroup

/-- The block and the spec in it that first introduce a type of the given name. -/
def introduction? (name : String) : List Decl → Option (Span × List TypeSpec × TypeSpec)
  | [] => none
  | .types span specs :: rest =>
    match specs.find? (·.name == name) with
    | some spec => some (span, specs, spec)
    | none => introduction? name rest
  | _ :: rest => introduction? name rest

namespace SourceFile

def marks? (f : SourceFile) (name : String) : Option Bool :=
  (introduction? name f.decls).map fun (span, specs, spec) =>
    f.commentGroups.any (CommentGroup.marks span spec.span (specs.length == 1))

end SourceFile

namespace Program

/-- Whether the marker is attached to the declaration of a type. -/
def isMarkedType (p : Program) (t : NamedType) : Bool :=
  match p.package? t.package with
  | none => false
  | some package => (package.files.findSome? (·.marks? t.name)).getD false

end Program

structure Lookup where
  program : Program
  memo : Option (List (NamedType × Bool))

namespace Lookup

def plain (p : Program) : Lookup := ⟨p, none⟩

def remembering (p : Program) : Lookup := ⟨p, some []⟩

def new (p : Program) (memoize : Bool) : Lookup := if memoize then remembering p else plain p

def ask (r : Lookup) (t : NamedType) : Bool × Lookup :=
  match r.memo with
  | none => (r.program.isMarkedType t, r)
  | some known =>
    match known.lookup t with
    | some answer => (answer, r)
    | none =>
      let answer := r.program.isMarkedType t
      (answer, { r with memo := some ((t, answer) :: known) })

theorem ask_program (r : Lookup) (t : NamedType) : (r.ask t).2.program = r.program := by
  unfold ask
  split
  · rfl
  · split <;> rfl

theorem ask_ask (r : Lookup) (t : NamedType) : ((r.ask t).2.ask t).1 = (r.ask t).1 := by
  obtain ⟨p, memo⟩ := r
  cases memo with
  | none => rfl
  | some known => cases hknown : known.lookup t <;> simp [ask, hknown]

end Lookup

end EnumCover
