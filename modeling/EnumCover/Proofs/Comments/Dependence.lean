import EnumCover.Proofs.Comments.Partition
import EnumCover.Proofs.Comments.Introductions
import EnumCover.Proofs.Coverage.Findings

namespace EnumCover

section SameEnds

variable {ends ends' : List Position}

theorem Comment.trails_congr (h : ∀ e, e ∈ ends ↔ e ∈ ends') (c : Comment) :
    c.trails ends = c.trails ends' := by
  rw [Bool.eq_iff_iff, Comment.trails_iff, Comment.trails_iff, Comment.Trails, Comment.Trails]
  exact exists_congr fun e => and_congr_left' (h e)

namespace CommentGroup

theorem joins_congr (h : ∀ e, e ∈ ends ↔ e ∈ ends') (g : CommentGroup) (c : Comment) :
    g.joins ends c = g.joins ends' c := by
  rw [joins, joins, Comment.trails_congr h]

theorem start_congr (h : ∀ e, e ∈ ends ↔ e ∈ ends') (c : Comment) :
    start ends c = start ends' c := by
  rw [start, start, Comment.trails_congr h]

theorem groupsFrom_congr (h : ∀ e, e ∈ ends ↔ e ∈ ends') (g : CommentGroup) (cs : List Comment) :
    groupsFrom ends g cs = groupsFrom ends' g cs := by
  induction cs generalizing g with
  | nil => rfl
  | cons c cs ih => rw [groupsFrom, groupsFrom, joins_congr h, start_congr h, ih, ih]

end CommentGroup

theorem splitComments_congr (h : ∀ e, e ∈ ends ↔ e ∈ ends') (cs : List Comment) :
    splitComments ends cs = splitComments ends' cs := by
  cases cs with
  | nil => rfl
  | cons c cs =>
    rw [splitComments, splitComments, CommentGroup.start_congr h, CommentGroup.groupsFrom_congr h]

end SameEnds

namespace Program

variable {p q : Program} {t : NamedType} {f g : SourceFile} {block : Span} {specs : List TypeSpec}
  {spec spec' : TypeSpec}

theorem FirstIntroduced.spec_unique (h : p.FirstIntroduced t f block specs spec)
    (h' : q.FirstIntroduced t g block specs spec') : spec = spec' := by
  have hspec := (find?_eq_some_iff_firstWith _ _ specs spec).mpr h.spec
  have hspec' := (find?_eq_some_iff_firstWith _ _ specs spec').mpr h'.spec
  exact Option.some.inj (hspec.symm.trans hspec')

theorem FirstIntroduced.isMarkedType_congr (h : p.FirstIntroduced t f block specs spec)
    (h' : q.FirstIntroduced t g block specs spec') (hcomments : f.comments = g.comments)
    (hends : ∀ e, e ∈ f.ends ↔ e ∈ g.ends) : p.isMarkedType t = q.isMarkedType t := by
  have hgroups : f.commentGroups = g.commentGroups := by
    rw [SourceFile.commentGroups, SourceFile.commentGroups, hcomments, splitComments_congr hends]
  rw [h.isMarkedType_eq, h'.isMarkedType_eq, hgroups, h.spec_unique h']

theorem isMarkedType_of_not_introduced
    (h : ∀ package, p.package? t.package = some package →
      ∀ f ∈ package.files, ¬f.Introduces t.name) : p.isMarkedType t = false := by
  rw [isMarkedType]
  split
  · rfl
  · next package hpackage =>
    have hnone : package.files.findSome? (·.marks? t.name) = none := by
      rw [List.findSome?_eq_none_iff]
      exact fun f hf => SourceFile.marks?_of_not (h package hpackage f hf)
    rw [hnone, Option.getD_none]

end Program

/-- The answer for a type, with or without a memo and after any questions, is what the comment
groups of the file that first introduces it say about the spec in the first block there. Two
programs agree about the type if these files have the same comments and the same ends of nodes, and
these blocks the same span and specs; nothing else in the programs plays a part. A type that no file
of its package introduces is not marked. -/
theorem first_introduction_decides (p : Program) (t : NamedType) (memoize : Bool)
    (asked : List NamedType) :
    (∀ f block specs spec, p.FirstIntroduced t f block specs spec →
      ((((Lookup.new p memoize).after asked).ask t).1 = true ↔
        ∃ g ∈ f.commentGroups, g.marks block spec.span (specs.length == 1) = true) ∧
      ∀ (q : Program) (g : SourceFile) (spec' : TypeSpec) (memoize' : Bool)
        (asked' : List NamedType), q.FirstIntroduced t g block specs spec' →
        f.comments = g.comments → (∀ e, e ∈ f.ends ↔ e ∈ g.ends) →
        (((Lookup.new p memoize).after asked).ask t).1 =
          (((Lookup.new q memoize').after asked').ask t).1) ∧
    ((∀ package, p.package? t.package = some package →
        ∀ f ∈ package.files, ¬f.Introduces t.name) →
      (((Lookup.new p memoize).after asked).ask t).1 = false) := by
  have hanswer (p : Program) (memoize : Bool) (asked : List NamedType) :
      (((Lookup.new p memoize).after asked).ask t).1 = p.isMarkedType t :=
    ((Lookup.answers_new p memoize).after asked).ask_fst t
  refine ⟨?_, fun hnone => ?_⟩
  · intro f block specs spec hfirst
    refine ⟨?_, fun q g spec' memoize' asked' hfirst' hcomments hends => ?_⟩
    · rw [hanswer, hfirst.isMarkedType_eq, List.any_eq_true]
    · rw [hanswer, hanswer, hfirst.isMarkedType_congr hfirst' hcomments hends]
  · rw [hanswer, Program.isMarkedType_of_not_introduced hnone]

end EnumCover
