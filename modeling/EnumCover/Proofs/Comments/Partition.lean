import EnumCover.Proofs.Comments.Groups

namespace EnumCover

namespace Comment

/-- The comment starts on a line where some node ends, strictly after that end. -/
def Trails (ends : List Position) (c : Comment) : Prop :=
  ∃ e ∈ ends, e.line = c.span.start.line ∧ e.column < c.span.start.column

instance (ends : List Position) (c : Comment) : Decidable (c.Trails ends) :=
  inferInstanceAs (Decidable (∃ e ∈ ends, _))

theorem trails_iff (ends : List Position) (c : Comment) : c.trails ends = true ↔ c.Trails ends := by
  simp only [trails, Trails, List.any_eq_true, Bool.and_eq_true, beq_iff_eq, decide_eq_true_eq]

theorem trails_eq_false_iff (ends : List Position) (c : Comment) :
    c.trails ends = false ↔ ¬c.Trails ends := by
  rw [← trails_iff, Bool.not_eq_true]

end Comment

/-- Comments in a row, and whether they are taken for trailing ones. There may be none. -/
structure CommentRun where
  comments : List Comment
  trailing : Bool

namespace CommentRun

/-- Lines of comments that follow each other: in a trailing run the second one starts where the
first one ends, in any other run at most one line below. -/
def Adjoins (trailing : Bool) (c d : Comment) : Prop :=
  if trailing then d.span.start.line = c.span.stop.line
  else d.span.start.line ≤ c.span.stop.line + 1

/-- A run may go on with a comment after its last one. A run that is not trailing takes in no
comment that trails a node. -/
def GoesOn (ends : List Position) (r : CommentRun) (d : Comment) : Prop :=
  ∃ c ∈ r.comments.getLast?, Adjoins r.trailing c d ∧ (r.trailing = false → ¬d.Trails ends)

end CommentRun

/-- The runs are a partition of the comments into groups that end only where they have to. -/
structure IsGrouping (ends : List Position) (cs : List Comment) (runs : List CommentRun) :
    Prop where
  joined : runs.flatMap CommentRun.comments = cs
  nonempty : ∀ r ∈ runs, r.comments ≠ []
  trailing_iff : ∀ r ∈ runs, ∀ c ∈ r.comments.head?, (r.trailing = true ↔ c.Trails ends)
  leading : ∀ r ∈ runs, r.trailing = false → ∀ c ∈ r.comments, ¬c.Trails ends
  lines : ∀ r ∈ runs, r.comments.IsChain (CommentRun.Adjoins r.trailing)
  forced : runs.IsChain fun r s => ∀ d ∈ s.comments.head?, ¬r.GoesOn ends d

namespace CommentGroup

variable {ends : List Position} {g : CommentGroup}

def run (g : CommentGroup) : CommentRun := ⟨g.comments, g.trailing⟩

theorem continues_iff (trailing : Bool) (c d : Comment) : Continues ends trailing c d ↔
    CommentRun.Adjoins trailing c d ∧ (trailing = false → ¬d.Trails ends) := by
  cases trailing with
  | true => simp [continues_trailing_iff, CommentRun.Adjoins]
  | false => simp [continues_leading_iff, CommentRun.Adjoins, Comment.trails_eq_false_iff]

theorem goesOn_run_iff (g : CommentGroup) (d : Comment) :
    g.run.GoesOn ends d ↔ Continues ends g.trailing g.last d := by
  have hlast : g.run.comments.getLast? = some g.last := g.getLast?_comments
  simp only [CommentRun.GoesOn, hlast, Option.mem_some, exists_eq_left', continues_iff]
  rfl

theorem formed_iff : g.Formed ends ↔ (g.trailing = true ↔ g.first.Trails ends) ∧
    (g.trailing = false → ∀ c ∈ g.comments, ¬c.Trails ends) ∧
      g.comments.IsChain (CommentRun.Adjoins g.trailing) := by
  constructor
  · intro h
    have hkind : g.trailing = true ↔ g.first.Trails ends := by
      rw [h.trailing_eq, Comment.trails_iff]
    refine ⟨hkind, ?_, h.linked.imp fun c d hcd => ((continues_iff _ c d).mp hcd).1⟩
    intro hleading
    apply h.of_first (P := fun c => ¬c.Trails ends)
    · intro c _ d _ hcd _
      exact ((continues_iff _ c d).mp hcd).2 hleading
    · rw [← hkind, hleading]
      exact Bool.false_ne_true
  · rintro ⟨hkind, hleading, hlines⟩
    refine ⟨?_, ?_⟩
    · rw [Bool.eq_iff_iff, hkind, Comment.trails_iff]
    · apply hlines.imp_of_mem_imp
      intro c d _ hd hcd
      exact (continues_iff _ c d).mpr ⟨hcd, fun hl => hleading hl d hd⟩

theorem exists_head?_groupsFrom (ends : List Position) (g : CommentGroup) (cs : List Comment) :
    ∃ h, (groupsFrom ends g cs).head? = some h ∧ h.first = g.first := by
  induction cs generalizing g with
  | nil => exact ⟨g, rfl, rfl⟩
  | cons c cs ih =>
    rw [groupsFrom]
    split
    · exact ih (g.push c)
    · exact ⟨g, rfl, rfl⟩

theorem isChain_groupsFrom (ends : List Position) (g : CommentGroup) (cs : List Comment) :
    (groupsFrom ends g cs).IsChain fun g h => ¬Continues ends g.trailing g.last h.first := by
  induction cs generalizing g with
  | nil => exact .singleton g
  | cons c cs ih =>
    rw [groupsFrom]
    split
    · exact ih (g.push c)
    · next hc =>
      rw [List.isChain_cons]
      refine ⟨?_, ih (start ends c)⟩
      intro h hh
      obtain ⟨h', hh', hfirst⟩ := exists_head?_groupsFrom ends (start ends c) cs
      rw [hh', Option.mem_some] at hh
      rw [← hh, hfirst, ← joins_iff]
      exact hc

theorem groupsFrom_append {g : CommentGroup} {ds : List Comment}
    (h : (g.last :: ds).IsChain (Continues ends g.trailing)) (cs : List Comment) :
    groupsFrom ends g (ds ++ cs) = groupsFrom ends { g with more := g.more ++ ds } cs := by
  induction ds generalizing g with
  | nil => simp only [List.nil_append, List.append_nil]
  | cons d ds ih =>
    obtain ⟨hd, hds⟩ := List.isChain_cons_cons.mp h
    rw [List.cons_append, groupsFrom, if_pos ((joins_iff d).mpr hd), ih (by rwa [last_push])]
    simp only [push, List.append_assoc, List.singleton_append]

theorem groupsFrom_of_not_continues {cs : List Comment}
    (h : ∀ d ∈ cs.head?, ¬Continues ends g.trailing g.last d) :
    groupsFrom ends g cs = g :: splitComments ends cs := by
  cases cs with
  | nil => rfl
  | cons d cs =>
    have hd : ¬g.joins ends d = true := by
      rw [joins_iff]
      exact h d rfl
    rw [groupsFrom, if_neg hd, splitComments]

/-- A well-formed group that cannot go on with the comments after it is the first of the groups. -/
theorem Formed.splitComments_append (hg : g.Formed ends) {cs : List Comment}
    (h : ∀ d ∈ cs.head?, ¬Continues ends g.trailing g.last d) :
    splitComments ends (g.comments ++ cs) = g :: splitComments ends cs := by
  obtain ⟨first, more, trailing⟩ := g
  have hopen : (start ends first).trailing = trailing := hg.trailing_eq.symm
  have hlinked := hg.linked
  rw [comments, List.cons_append, splitComments, groupsFrom_append (by rw [hopen]; exact hlinked)]
  rw [show ({ start ends first with more := (start ends first).more ++ more } : CommentGroup) =
    ⟨first, more, trailing⟩ by rw [← hopen]; rfl]
  exact groupsFrom_of_not_continues h

end CommentGroup

theorem IsGrouping.tail {ends : List Position} {cs : List Comment} {r : CommentRun}
    {runs : List CommentRun} (h : IsGrouping ends cs (r :: runs)) :
    IsGrouping ends (runs.flatMap CommentRun.comments) runs where
  joined := rfl
  nonempty s hs := h.nonempty s (List.mem_cons_of_mem r hs)
  trailing_iff s hs := h.trailing_iff s (List.mem_cons_of_mem r hs)
  leading s hs := h.leading s (List.mem_cons_of_mem r hs)
  lines s hs := h.lines s (List.mem_cons_of_mem r hs)
  forced := h.forced.tail

theorem IsGrouping.exists_formed {ends : List Position} {cs : List Comment}
    {runs : List CommentRun} (h : IsGrouping ends cs runs) {r : CommentRun} (hr : r ∈ runs) :
    ∃ g : CommentGroup, g.run = r ∧ g.Formed ends := by
  obtain ⟨comments, trailing⟩ := r
  cases comments with
  | nil => exact absurd rfl (h.nonempty _ hr)
  | cons c more =>
    refine ⟨⟨c, more, trailing⟩, rfl, CommentGroup.formed_iff.mpr ⟨?_, ?_, ?_⟩⟩
    · exact h.trailing_iff _ hr c rfl
    · exact h.leading _ hr
    · exact h.lines _ hr

theorem IsGrouping.eq_splitComments {ends : List Position} {cs : List Comment}
    {runs : List CommentRun} (h : IsGrouping ends cs runs) :
    runs = (splitComments ends cs).map CommentGroup.run := by
  induction runs generalizing cs with
  | nil =>
    rw [← h.joined]
    rfl
  | cons r runs ih =>
    obtain ⟨g, rfl, hformed⟩ := h.exists_formed List.mem_cons_self
    obtain ⟨hforced, -⟩ := List.isChain_cons.mp h.forced
    have hnext : ∀ d ∈ (runs.flatMap CommentRun.comments).head?,
        ¬CommentGroup.Continues ends g.trailing g.last d := by
      intro d hd
      cases runs with
      | nil => cases hd
      | cons s runs =>
        -- the run after the group is not empty, so the next comment is its first one
        obtain ⟨g', rfl, -⟩ := h.exists_formed (List.mem_cons_of_mem _ List.mem_cons_self)
        rw [← CommentGroup.goesOn_run_iff]
        exact hforced g'.run rfl d hd
    rw [← h.joined, List.flatMap_cons]
    rw [show g.run.comments = g.comments from rfl, hformed.splitComments_append hnext,
      List.map_cons, ← ih h.tail]

theorem isChain_splitComments (ends : List Position) (cs : List Comment) :
    (splitComments ends cs).IsChain fun g h =>
      ¬CommentGroup.Continues ends g.trailing g.last h.first := by
  cases cs with
  | nil => exact .nil
  | cons c cs => exact CommentGroup.isChain_groupsFrom ends (.start ends c) cs

theorem isGrouping_splitComments (ends : List Position) (cs : List Comment) :
    IsGrouping ends cs ((splitComments ends cs).map CommentGroup.run) where
  joined := by
    rw [List.flatMap_map]
    exact flatMap_splitComments ends cs
  nonempty := by
    rw [List.forall_mem_map]
    exact fun g _ => List.cons_ne_nil _ _
  trailing_iff := by
    rw [List.forall_mem_map]
    rintro g hg c ⟨⟩
    exact (CommentGroup.formed_iff.mp (formed_of_mem_splitComments hg)).1
  leading := by
    rw [List.forall_mem_map]
    exact fun g hg => (CommentGroup.formed_iff.mp (formed_of_mem_splitComments hg)).2.1
  lines := by
    rw [List.forall_mem_map]
    exact fun g hg => (CommentGroup.formed_iff.mp (formed_of_mem_splitComments hg)).2.2
  forced := by
    rw [List.isChain_map]
    refine (isChain_splitComments ends cs).imp ?_
    rintro g h hgh d ⟨⟩
    rwa [CommentGroup.goesOn_run_iff]

/-- The groups of some comments are a partition into runs that end only where they have to, and no
other runs are. -/
theorem splitComments_sole_grouping (ends : List Position) (cs : List Comment)
    (runs : List CommentRun) :
    IsGrouping ends cs runs ↔ runs = (splitComments ends cs).map CommentGroup.run := by
  constructor
  · exact IsGrouping.eq_splitComments
  · rintro rfl
    exact isGrouping_splitComments ends cs

end EnumCover
