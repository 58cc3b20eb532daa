import Mathlib.Data.List.Chain
import EnumCover.Comments.Group

namespace EnumCover

/-- A position does not come after another. -/
def Position.AtOrBefore (a b : Position) : Prop :=
  a.line < b.line ∨ a.line = b.line ∧ a.column ≤ b.column

instance (a b : Position) : Decidable (a.AtOrBefore b) :=
  inferInstanceAs (Decidable (_ ∨ _))

/-- A comment starts no later than another and ends no later. -/
def Comment.Precedes (c d : Comment) : Prop :=
  c.span.start.AtOrBefore d.span.start ∧ c.span.stop.AtOrBefore d.span.stop

instance (c d : Comment) : Decidable (c.Precedes d) := inferInstanceAs (Decidable (_ ∧ _))

/-- Comments in the order of the source. -/
def InSourceOrder (cs : List Comment) : Prop := cs.Pairwise Comment.Precedes

instance (cs : List Comment) : Decidable (InSourceOrder cs) :=
  inferInstanceAs (Decidable (cs.Pairwise _))

namespace CommentGroup

variable {ends : List Position} {g : CommentGroup}

/-- A comment may come after another in a group. -/
def Continues (ends : List Position) (trailing : Bool) (c d : Comment) : Prop :=
  if trailing then d.span.start.line = c.span.stop.line
  else d.span.start.line ≤ c.span.stop.line + 1 ∧ d.trails ends = false

theorem continues_trailing_iff (c d : Comment) :
    Continues ends true c d ↔ d.span.start.line = c.span.stop.line := by
  rw [Continues, if_pos rfl]

theorem continues_leading_iff (c d : Comment) : Continues ends false c d ↔
    d.span.start.line ≤ c.span.stop.line + 1 ∧ d.trails ends = false := by
  rw [Continues, if_neg Bool.false_ne_true]

theorem joins_iff (c : Comment) :
    g.joins ends c = true ↔ Continues ends g.trailing g.last c := by
  unfold joins
  cases g.trailing with
  | true =>
    rw [if_pos rfl, beq_iff_eq, continues_trailing_iff]
    exact eq_comm
  | false =>
    rw [if_neg Bool.false_ne_true, Bool.and_eq_true, decide_eq_true_eq, Bool.not_eq_true',
      continues_leading_iff]
    rfl

theorem getLast?_comments (g : CommentGroup) : g.comments.getLast? = some g.last := by
  rw [comments, List.getLast?_eq_some_getLast (List.cons_ne_nil _ _), List.getLast_eq_getLastD,
    last]

theorem last_mem_of_split {before after : List Comment} {m : Comment}
    (hsplit : g.comments = before ++ m :: after) : g.last ∈ m :: after := by
  have hlast := g.getLast?_comments
  rw [hsplit, List.getLast?_append_of_ne_nil _ (List.cons_ne_nil m after)] at hlast
  exact List.mem_of_getLast? hlast

/-- What every group has that comes from splitting comments. -/
structure Formed (ends : List Position) (g : CommentGroup) : Prop where
  trailing_eq : g.trailing = g.first.trails ends
  linked : g.comments.IsChain (Continues ends g.trailing)

theorem formed_start (ends : List Position) (c : Comment) : (start ends c).Formed ends :=
  ⟨rfl, .singleton c⟩

theorem Formed.push (h : g.Formed ends) {c : Comment} (hc : g.joins ends c = true) :
    (g.push c).Formed ends := by
  refine ⟨h.trailing_eq, ?_⟩
  rw [comments_push]
  apply h.linked.append (.singleton c)
  intro x hx y hy
  rw [getLast?_comments, Option.mem_some] at hx
  rw [List.head?_cons, Option.mem_some] at hy
  subst hx hy
  exact (joins_iff _).mp hc

theorem Formed.groupsFrom (h : g.Formed ends) (cs : List Comment) :
    ∀ g' ∈ groupsFrom ends g cs, g'.Formed ends := by
  induction cs generalizing g with
  | nil =>
    intro g' hg'
    rw [CommentGroup.groupsFrom, List.mem_singleton] at hg'
    exact hg' ▸ h
  | cons c cs ih =>
    intro g' hg'
    rw [CommentGroup.groupsFrom] at hg'
    split at hg'
    · next hc => exact ih (h.push hc) g' hg'
    · rcases List.mem_cons.mp hg' with rfl | hg'
      · exact h
      · exact ih (formed_start ends c) g' hg'

theorem flatMap_groupsFrom (ends : List Position) (g : CommentGroup) (cs : List Comment) :
    (groupsFrom ends g cs).flatMap comments = g.comments ++ cs := by
  induction cs generalizing g with
  | nil => simp only [groupsFrom, List.flatMap_singleton, List.append_nil]
  | cons c cs ih =>
    rw [groupsFrom]
    split
    · rw [ih, comments_push, List.append_assoc, List.singleton_append]
    · rw [List.flatMap_cons, ih]
      rfl

/-- What a comment of a group hands on to the next holds for all that follow it. -/
theorem Formed.of_continues (h : g.Formed ends) {P : Comment → Prop}
    (hstep : ∀ c ∈ g.comments, ∀ d ∈ g.comments, Continues ends g.trailing c d → P c → P d)
    {before after : List Comment} {m : Comment} (hsplit : g.comments = before ++ m :: after)
    (hm : P m) : ∀ c ∈ m :: after, P c := by
  have hchain := h.linked
  rw [hsplit, List.isChain_split] at hchain
  have hmem : ∀ c ∈ m :: after, c ∈ g.comments := by
    intro c hc
    rw [hsplit]
    exact List.mem_append_right before hc
  -- the invariant also says that the comment is one of the group, which the step asks for
  have hall := hchain.2.imp_of_mem_imp (S := fun c d =>
    d ∈ g.comments ∧ Continues ends g.trailing c d) fun c d _ hd hcd => ⟨hmem d hd, hcd⟩
  intro c hc
  refine (hall.induction (fun c => c ∈ g.comments ∧ P c) _ ?_ ?_ c hc).2
  · intro x y hxy hx
    exact ⟨hxy.1, hstep x hx.1 y hxy.1 hxy.2 hx.2⟩
  · intro _
    exact ⟨hmem m List.mem_cons_self, hm⟩

theorem Formed.of_first (h : g.Formed ends) {P : Comment → Prop}
    (hstep : ∀ c ∈ g.comments, ∀ d ∈ g.comments, Continues ends g.trailing c d → P c → P d)
    (hfirst : P g.first) : ∀ c ∈ g.comments, P c :=
  h.of_continues hstep (show g.comments = [] ++ g.first :: g.more from rfl) hfirst

end CommentGroup

section Split

open CommentGroup

variable {ends : List Position} {cs : List Comment} {g : CommentGroup}

theorem formed_of_mem_splitComments (hg : g ∈ splitComments ends cs) : g.Formed ends := by
  cases cs with
  | nil => cases hg
  | cons c cs => exact (formed_start ends c).groupsFrom cs g hg

theorem flatMap_splitComments (ends : List Position) (cs : List Comment) :
    (splitComments ends cs).flatMap comments = cs := by
  cases cs with
  | nil => rfl
  | cons c cs => exact flatMap_groupsFrom ends (start ends c) cs

theorem mem_iff_mem_splitComments (ends : List Position) (cs : List Comment) (c : Comment) :
    c ∈ cs ↔ ∃ g ∈ splitComments ends cs, c ∈ g.comments := by
  rw [← List.mem_flatMap, flatMap_splitComments]

theorem pairwise_of_mem_splitComments {R : Comment → Comment → Prop} (h : cs.Pairwise R)
    (hg : g ∈ splitComments ends cs) : g.comments.Pairwise R := by
  rw [← flatMap_splitComments ends cs, List.pairwise_flatMap] at h
  exact h.1 g hg

end Split

theorem on_one_line_iff {c : Comment} {cs : List Comment}
    (h : (c :: cs).IsChain fun c d => d.span.start.line = c.span.stop.line) :
    (∀ d ∈ c :: cs, d.span.start.line = c.span.start.line) ↔
      ∀ d ∈ (c :: cs).dropLast, d.span.stop.line = d.span.start.line := by
  induction cs generalizing c with
  | nil => simp
  | cons d cs ih =>
    obtain ⟨hd, hcs⟩ := List.isChain_cons_cons.mp h
    have hrest : (∀ e ∈ (c :: d :: cs).dropLast, e.span.stop.line = e.span.start.line) ↔
        d.span.start.line = c.span.start.line ∧
          ∀ e ∈ d :: cs, e.span.start.line = d.span.start.line := by
      rw [List.dropLast_cons_cons, List.forall_mem_cons, ih hcs, hd]
    rw [hrest]
    constructor
    · intro hall
      have hline : d.span.start.line = c.span.start.line := hall d (by simp)
      refine ⟨hline, fun e he => ?_⟩
      rw [hline]
      exact hall e (List.mem_cons_of_mem c he)
    · rintro ⟨hline, hall⟩ e he
      rcases List.mem_cons.mp he with rfl | he
      · rfl
      · exact (hall e he).trans hline

/-- A trailing group holds only comments of its line if and only if each of its comments that
another one follows ends on the line where it starts. -/
theorem trailing_group_on_one_line_iff (ends : List Position) (cs : List Comment)
    (g : CommentGroup) (hg : g ∈ splitComments ends cs) (htrailing : g.trailing = true) :
    (∀ c ∈ g.comments, c.span.start.line = g.first.span.start.line) ↔
      ∀ c ∈ g.comments.dropLast, c.span.stop.line = c.span.start.line := by
  have hlinked := (formed_of_mem_splitComments hg).linked
  rw [htrailing] at hlinked
  exact on_one_line_iff (hlinked.imp fun c d hcd =>
    (CommentGroup.continues_trailing_iff c d).mp hcd)

/-- The last comment of the line may go on over the next ones. -/
theorem trailing_group_on_one_line_iff_last_wrapped :
    let g : CommentGroup := ⟨⟨"/* a */", ⟨⟨1, 14⟩, ⟨1, 21⟩⟩⟩,
      [⟨"/* b\n*/", ⟨⟨1, 22⟩, ⟨2, 3⟩⟩⟩], true⟩
    g ∈ splitComments [⟨1, 13⟩] g.comments ∧ g.trailing = true ∧
      ∀ c ∈ g.comments, c.span.start.line = g.first.span.start.line := by
  intro g
  have hg : g ∈ splitComments [⟨1, 13⟩] g.comments := by decide
  have htrailing : g.trailing = true := rfl
  exact ⟨hg, htrailing,
    (trailing_group_on_one_line_iff [⟨1, 13⟩] g.comments g hg htrailing).mpr (by decide)⟩

/-- A comment after `Day` that ends on the next line, in front of the marker that stands right above
`Time`. -/
def wrappedTrailer : SourceFile :=
  ⟨"a.go", [⟨"/* of\nthe week */", ⟨⟨1, 14⟩, ⟨2, 12⟩⟩⟩,
      ⟨"//exhaustive-enum", ⟨⟨2, 13⟩, ⟨2, 30⟩⟩⟩],
    [.types ⟨⟨1, 1⟩, ⟨1, 13⟩⟩ [⟨"Day", ⟨⟨1, 6⟩, ⟨1, 13⟩⟩⟩],
      .types ⟨⟨3, 1⟩, ⟨3, 14⟩⟩ [⟨"Time", ⟨⟨3, 6⟩, ⟨3, 14⟩⟩⟩]]⟩

/-- The trailing group of `Day` takes in the comment of the next line. -/
theorem trailing_group_takes_next_line :
    InSourceOrder wrappedTrailer.comments ∧
      ∃ g ∈ splitComments wrappedTrailer.ends wrappedTrailer.comments, g.trailing = true ∧
        ∃ c ∈ g.comments, c.span.start.line ≠ g.first.span.start.line := by
  decide

end EnumCover
