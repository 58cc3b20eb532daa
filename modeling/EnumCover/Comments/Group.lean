import EnumCover.Program.Tree

namespace EnumCover

/-- A run of comments, never empty. A trailing group stands after the end of a node on its line. -/
structure CommentGroup where
  first : Comment
  more : List Comment
  trailing : Bool
  deriving DecidableEq, Repr

namespace CommentGroup

def comments (g : CommentGroup) : List Comment := g.first :: g.more

def last (g : CommentGroup) : Comment := g.more.getLastD g.first

def span (g : CommentGroup) : Span := ⟨g.first.span.start, g.last.span.stop⟩

def push (g : CommentGroup) (c : Comment) : CommentGroup := { g with more := g.more ++ [c] }

@[simp] theorem comments_push (g : CommentGroup) (c : Comment) :
    (g.push c).comments = g.comments ++ [c] := rfl

@[simp] theorem last_push (g : CommentGroup) (c : Comment) : (g.push c).last = c := by
  simp [push, last]

/-- A trailing group belongs to the nodes that end before it on its line, any other group to the
nodes that start on the line after it. Lines are numbers of 32 bits where programs are read, and
nothing is said of a group on the last of these lines: the line after it has no number there. -/
def belongsTo (g : CommentGroup) (node : Span) : Bool :=
  if g.trailing then
    g.span.start.line == node.stop.line && node.stop.column < g.span.start.column
  else g.span.stop.line + 1 == node.start.line

end CommentGroup

namespace Comment

def trails (ends : List Position) (c : Comment) : Bool :=
  ends.any fun e => e.line == c.span.start.line && e.column < c.span.start.column

end Comment

namespace CommentGroup

/-- Whether a group goes on with a comment. As in `belongsTo`, the line after a group is meant to
have a number of 32 bits. -/
def joins (ends : List Position) (g : CommentGroup) (c : Comment) : Bool :=
  if g.trailing then g.span.stop.line == c.span.start.line
  else c.span.start.line ≤ g.span.stop.line + 1 && !c.trails ends

def start (ends : List Position) (c : Comment) : CommentGroup := ⟨c, [], c.trails ends⟩

/-- The groups of some comments that follow an open group. -/
def groupsFrom (ends : List Position) (g : CommentGroup) : List Comment → List CommentGroup
  | [] => [g]
  | c :: cs =>
    if g.joins ends c then groupsFrom ends (g.push c) cs
    else g :: groupsFrom ends (start ends c) cs

end CommentGroup

/-- Splits comments into groups, given the positions where nodes end. -/
def splitComments (ends : List Position) : List Comment → List CommentGroup
  | [] => []
  | c :: cs => CommentGroup.groupsFrom ends (.start ends c) cs

def Decl.ends : Decl → List Position
  | .types span specs => span.stop :: specs.map (·.span.stop)
  | .consts span specs => span.stop :: specs.map (·.span.stop)
  | .func _ span _ | .var span _ | .other span => [span.stop]

def SourceFile.ends (f : SourceFile) : List Position := f.decls.flatMap Decl.ends

def SourceFile.commentGroups (f : SourceFile) : List CommentGroup :=
  splitComments f.ends f.comments

end EnumCover
