import EnumCover.Proofs.Comments.Groups
import EnumCover.Proofs.Comments.Introductions

namespace EnumCover

namespace CommentGroup

variable {g : CommentGroup}

theorem belongsTo_iff_of_trailing (h : g.trailing = true) (node : Span) :
    g.belongsTo node = true ↔
      g.first.span.start.line = node.stop.line ∧ node.stop.column < g.first.span.start.column := by
  rw [belongsTo, if_pos h, Bool.and_eq_true, beq_iff_eq, decide_eq_true_eq, span]

theorem belongsTo_iff_of_leading (h : g.trailing = false) (node : Span) :
    g.belongsTo node = true ↔ g.last.span.stop.line + 1 = node.start.line := by
  rw [belongsTo, if_neg (Bool.not_eq_true _ ▸ h), beq_iff_eq, span]

theorem isMarked_iff (g : CommentGroup) :
    g.isMarked = true ↔ ∃ c ∈ g.comments, c.isMarker = true := by
  rw [isMarked, List.any_eq_true]

end CommentGroup

theorem Comment.trails_of_same_line {ends : List Position} {c d : Comment}
    (hc : c.trails ends = true) (hline : d.span.start.line = c.span.start.line)
    (hcolumn : c.span.start.column ≤ d.span.start.column) : d.trails ends = true := by
  simp only [trails, List.any_eq_true, Bool.and_eq_true, beq_iff_eq, decide_eq_true_eq] at hc ⊢
  obtain ⟨e, he, heline, hecolumn⟩ := hc
  exact ⟨e, he, heline.trans hline.symm, by omega⟩

namespace SourceFile

/-- Whatever comment stands on the line, or goes over it, trails a node. -/
def ClearLine (f : SourceFile) (line : Nat) : Prop :=
  ∀ c ∈ f.comments, c.trails f.ends = false → c.span.start.line ≤ line → c.span.stop.line < line

instance (f : SourceFile) (line : Nat) : Decidable (f.ClearLine line) :=
  inferInstanceAs (Decidable (∀ c ∈ f.comments, _ → _ → _))

/-- No comment starts where a comment ends that trails a node and runs over several lines. -/
def TrailersUnwrapped (f : SourceFile) : Prop :=
  ∀ c ∈ f.comments, c.trails f.ends = true → ∀ d ∈ f.comments,
    d.span.start.line = c.span.stop.line → c.span.start.line = c.span.stop.line

instance (f : SourceFile) : Decidable f.TrailersUnwrapped :=
  inferInstanceAs (Decidable (∀ c ∈ f.comments, _ → ∀ d ∈ f.comments, _ → _))

variable {f : SourceFile} {g : CommentGroup}

theorem mem_comments (hg : g ∈ f.commentGroups) {c : Comment} (hc : c ∈ g.comments) :
    c ∈ f.comments :=
  (mem_iff_mem_splitComments f.ends f.comments c).mpr ⟨g, hg, hc⟩

theorem stop_lt_of_clearLine {line : Nat} (hclear : f.ClearLine line) (hg : g ∈ f.commentGroups)
    (hleading : g.trailing = false) {before after : List Comment} {m : Comment}
    (hsplit : g.comments = before ++ m :: after) (hm : m.span.stop.line < line) :
    g.last.span.stop.line < line := by
  refine (formed_of_mem_splitComments hg).of_continues (P := fun c => c.span.stop.line < line) ?_
    hsplit hm _ (CommentGroup.last_mem_of_split hsplit)
  intro c _ d hd hcd hc
  rw [hleading, CommentGroup.continues_leading_iff] at hcd
  exact hclear d (mem_comments hg hd) hcd.2 (by omega)

theorem start_le_of_trailing (hforward : ∀ c ∈ f.comments, c.span.start.line ≤ c.span.stop.line)
    (hg : g ∈ f.commentGroups) (htrailing : g.trailing = true) :
    ∀ c ∈ g.comments, g.first.span.start.line ≤ c.span.stop.line := by
  apply (formed_of_mem_splitComments hg).of_first
    (P := fun c => g.first.span.start.line ≤ c.span.stop.line)
  · intro c _ d hd hcd hc
    rw [htrailing, CommentGroup.continues_trailing_iff] at hcd
    have hd' := hforward d (mem_comments hg hd)
    omega
  · exact hforward g.first (mem_comments hg List.mem_cons_self)

theorem trails_of_trailing (horder : InSourceOrder f.comments) (hunwrapped : f.TrailersUnwrapped)
    (hg : g ∈ f.commentGroups) (htrailing : g.trailing = true) :
    ∀ c ∈ g.comments, c.trails f.ends = true := by
  have hformed := formed_of_mem_splitComments hg
  have hfirst : g.first.trails f.ends = true := hformed.trailing_eq ▸ htrailing
  have hordered := List.pairwise_cons.mp (pairwise_of_mem_splitComments horder hg)
  -- all comments start on the line of the first, and none of them before it
  have hall : ∀ c ∈ g.comments,
      c.trails f.ends = true ∧ c.span.start.line = g.first.span.start.line := by
    apply hformed.of_first
      (P := fun c => c.trails f.ends = true ∧ c.span.start.line = g.first.span.start.line)
    · intro c hc d hd hcd ⟨hctrails, hcline⟩
      rw [htrailing, CommentGroup.continues_trailing_iff] at hcd
      have hstop := hunwrapped c (mem_comments hg hc) hctrails d (mem_comments hg hd) hcd
      have hline : d.span.start.line = g.first.span.start.line := by omega
      refine ⟨?_, hline⟩
      rcases List.mem_cons.mp hd with rfl | hd
      · exact hfirst
      · have hbefore : g.first.span.start.AtOrBefore d.span.start := (hordered.1 d hd).1
        apply Comment.trails_of_same_line hfirst hline
        unfold Position.AtOrBefore at hbefore
        omega
    · exact ⟨hfirst, rfl⟩
  exact fun c hc => (hall c hc).1

end SourceFile

def oneBlock (comments : List Comment) (block : Span) (specs : List TypeSpec) : SourceFile :=
  ⟨"a.go", comments, [.types block specs]⟩

def Program.ofFile (f : SourceFile) : Program := ⟨[⟨"p", true, [], [f]⟩]⟩

theorem firstIntroduced_oneBlock (comments : List Comment) (block : Span) (spec : TypeSpec)
    (rest : List TypeSpec) :
    (Program.ofFile (oneBlock comments block (spec :: rest))).FirstIntroduced ⟨"p", spec.name⟩
      (oneBlock comments block (spec :: rest)) block (spec :: rest) spec := by
  have hfirst {α : Type} (P : α → Prop) (a : α) (l : List α) (ha : P a) :
      FirstWith P a (a :: l) :=
    ⟨ha, [], l, rfl, by simp⟩
  have hblock : Decl.Introduces spec.name (.types block (spec :: rest)) :=
    ⟨spec, List.mem_cons_self, rfl⟩
  have hfile : (oneBlock comments block (spec :: rest)).Introduces spec.name :=
    ⟨_, List.mem_cons_self, hblock⟩
  exact ⟨⟨_, rfl, hfirst _ _ _ hfile⟩, hfirst _ _ _ hblock, hfirst _ _ _ rfl⟩

section Headers

variable {p : Program} {t : NamedType} {f : SourceFile} {block : Span} {specs : List TypeSpec}
  {spec : TypeSpec}

/-- If all markers stand right above a block of several types, one of them reaches a type in it
exactly if its group goes on over the first line of the block, to the line before the type. -/
theorem isMarkedType_iff_of_header (h : p.FirstIntroduced t f block specs spec)
    (hseveral : 2 ≤ specs.length)
    (hmarkers : ∀ c ∈ f.comments, c.isMarker = true → c.span.stop.line + 1 = block.start.line)
    (hforward : ∀ c ∈ f.comments, c.span.start.line ≤ c.span.stop.line)
    (hstart : block.start.line ≤ spec.span.start.line)
    (hstop : block.start.line ≤ spec.span.stop.line) :
    p.isMarkedType t = true ↔ ∃ g ∈ f.commentGroups, g.isMarked = true ∧ g.trailing = false ∧
      block.start.line ≤ g.last.span.stop.line ∧
        g.last.span.stop.line + 1 = spec.span.start.line := by
  have halone : (specs.length == 1) = false := by
    rw [beq_eq_false_iff_ne]
    omega
  rw [h.isMarkedType_eq, halone, List.any_eq_true]
  apply exists_congr
  intro g
  apply and_congr_right
  intro hg
  simp only [CommentGroup.marks, Bool.false_eq_true, if_false, Bool.and_eq_true, Bool.not_eq_true']
  apply and_congr_right
  intro hmarked
  cases htrailing : g.trailing with
  | true =>
    -- a trailing group of the type ends below the header, so it has no marker
    obtain ⟨m, hm, hmarker⟩ := g.isMarked_iff.mp hmarked
    have hline := SourceFile.start_le_of_trailing hforward hg htrailing m hm
    have habove := hmarkers m (SourceFile.mem_comments hg hm) hmarker
    rw [CommentGroup.belongsTo_iff_of_trailing htrailing]
    constructor
    · rintro ⟨⟨hfirst, -⟩, -⟩
      omega
    · rintro ⟨htrue, -⟩
      cases htrue
  | false =>
    rw [CommentGroup.belongsTo_iff_of_leading htrailing, ← Bool.not_eq_true,
      CommentGroup.belongsTo_iff_of_leading htrailing, eq_self, true_and]
    omega

/-- A marker right above a block of several types is for none of them, if whatever comment stands on
the first line of the block trails a node. -/
theorem header_marker_reaches_no_member (p : Program) (t : NamedType) (f : SourceFile)
    (block : Span) (specs : List TypeSpec) (spec : TypeSpec)
    (h : p.FirstIntroduced t f block specs spec) (hseveral : 2 ≤ specs.length)
    (hmarkers : ∀ c ∈ f.comments, c.isMarker = true → c.span.stop.line + 1 = block.start.line)
    (hforward : ∀ c ∈ f.comments, c.span.start.line ≤ c.span.stop.line)
    (hstart : block.start.line ≤ spec.span.start.line)
    (hstop : block.start.line ≤ spec.span.stop.line)
    (hclear : f.ClearLine block.start.line) : p.isMarkedType t = false := by
  rw [← Bool.not_eq_true,
    isMarkedType_iff_of_header h hseveral hmarkers hforward hstart hstop]
  rintro ⟨g, hg, hmarked, hleading, hover, -⟩
  obtain ⟨m, hm, hmarker⟩ := g.isMarked_iff.mp hmarked
  obtain ⟨before, after, hsplit⟩ := List.append_of_mem hm
  have habove := hmarkers m (SourceFile.mem_comments hg hm) hmarker
  have hlast := SourceFile.stop_lt_of_clearLine hclear hg hleading hsplit (by omega)
  omega

theorem header_marker_reaches_no_member_trailer :
    let f := oneBlock [⟨markerText, ⟨⟨3, 1⟩, ⟨3, 18⟩⟩⟩, ⟨"// first", ⟨⟨4, 16⟩, ⟨4, 24⟩⟩⟩]
      ⟨⟨4, 1⟩, ⟨5, 12⟩⟩ [⟨"Day", ⟨⟨4, 8⟩, ⟨4, 15⟩⟩⟩, ⟨"Time", ⟨⟨5, 2⟩, ⟨5, 10⟩⟩⟩]
    f.ClearLine 4 ∧ (Program.ofFile f).isMarkedType ⟨"p", "Day"⟩ = false := by
  intro f
  have hclear : f.ClearLine 4 := by decide
  have hmarkers : ∀ c ∈ f.comments, c.isMarker = true → c.span.stop.line + 1 = 4 := by decide
  exact ⟨hclear, header_marker_reaches_no_member (.ofFile f) ⟨"p", "Day"⟩ f _ _ _
    (firstIntroduced_oneBlock _ _ _ _) (by decide) hmarkers (by decide) (by decide) (by decide)
    hclear⟩

/-- A comment after the bracket that opens the block carries the marker on to the first type. -/
theorem header_marker_reaches_first_member :
    let block : Span := ⟨⟨4, 1⟩, ⟨7, 2⟩⟩
    let day : TypeSpec := ⟨"Day", ⟨⟨5, 2⟩, ⟨5, 9⟩⟩⟩
    let time : TypeSpec := ⟨"Time", ⟨⟨6, 2⟩, ⟨6, 10⟩⟩⟩
    let f := oneBlock [⟨markerText, ⟨⟨3, 1⟩, ⟨3, 18⟩⟩⟩, ⟨"// days", ⟨⟨4, 8⟩, ⟨4, 15⟩⟩⟩] block
      [day, time]
    (Program.ofFile f).FirstIntroduced ⟨"p", "Day"⟩ f block [day, time] day ∧
      (∀ c ∈ f.comments, c.isMarker = true → c.span.stop.line + 1 = block.start.line) ∧
      (Program.ofFile f).isMarkedType ⟨"p", "Day"⟩ = true := by
  intro block day time f
  exact ⟨firstIntroduced_oneBlock _ _ _ _, by decide, by decide⟩

/-- A marker right above a block of one type marks it, unless it trails a node. No comment may stand
on the first line of the block that trails no node, and none may start on the last line of a comment
that trails a node and runs over several lines. -/
theorem leading_marker_marks_sole_type (p : Program) (t : NamedType) (f : SourceFile)
    (block : Span) (spec : TypeSpec) (m : Comment) (h : p.FirstIntroduced t f block [spec] spec)
    (horder : InSourceOrder f.comments) (hm : m ∈ f.comments) (hmarker : m.isMarker = true)
    (habove : m.span.stop.line + 1 = block.start.line) (hleads : m.trails f.ends = false)
    (hclear : f.ClearLine block.start.line) (hunwrapped : f.TrailersUnwrapped) :
    p.isMarkedType t = true := by
  obtain ⟨g, hg, hmg⟩ := (mem_iff_mem_splitComments f.ends f.comments m).mp hm
  have hleading : g.trailing = false := by
    rw [← Bool.not_eq_true]
    intro htrailing
    have htrails := SourceFile.trails_of_trailing horder hunwrapped hg htrailing m hmg
    rw [hleads] at htrails
    cases htrails
  obtain ⟨before, after, hsplit⟩ := List.append_of_mem hmg
  -- the group ends where the marker ends, between the order of the comments and the clear line
  have hupper := SourceFile.stop_lt_of_clearLine hclear hg hleading hsplit (by omega)
  have hlower : m.span.stop.line ≤ g.last.span.stop.line := by
    have hordered := pairwise_of_mem_splitComments horder hg
    rw [hsplit, List.pairwise_append, List.pairwise_cons] at hordered
    rcases List.mem_cons.mp (CommentGroup.last_mem_of_split hsplit) with hlast | hlast
    · rw [hlast]
    · have hbefore : m.span.stop.AtOrBefore g.last.span.stop := (hordered.2.1.1 _ hlast).2
      unfold Position.AtOrBefore at hbefore
      omega
  have hbelongs : g.belongsTo block = true := by
    rw [CommentGroup.belongsTo_iff_of_leading hleading]
    omega
  rw [h.isMarkedType_eq, List.any_eq_true]
  refine ⟨g, hg, ?_⟩
  simp only [CommentGroup.marks, g.isMarked_iff.mpr ⟨m, hmg, hmarker⟩, hbelongs, Bool.true_or,
    Bool.and_true, List.length_singleton, beq_self_eq_true, if_true]

theorem leading_marker_marks_sole_type_between :
    let m : Comment := ⟨markerText, ⟨⟨3, 1⟩, ⟨3, 18⟩⟩⟩
    let f := oneBlock [⟨"// Day of the week.", ⟨⟨2, 1⟩, ⟨2, 20⟩⟩⟩, m,
      ⟨"// seven", ⟨⟨4, 14⟩, ⟨4, 22⟩⟩⟩] ⟨⟨4, 1⟩, ⟨4, 13⟩⟩ [⟨"Day", ⟨⟨4, 6⟩, ⟨4, 13⟩⟩⟩]
    f.ClearLine 4 ∧ f.TrailersUnwrapped ∧
      (Program.ofFile f).isMarkedType ⟨"p", "Day"⟩ = true := by
  intro m f
  have hclear : f.ClearLine 4 := by decide
  have hunwrapped : f.TrailersUnwrapped := by decide
  exact ⟨hclear, hunwrapped, leading_marker_marks_sole_type (.ofFile f) ⟨"p", "Day"⟩ f _ _ m
    (firstIntroduced_oneBlock _ _ _ _) (by decide) (by decide) (by decide) rfl (by decide) hclear
    hunwrapped⟩

/-- A comment inside the declaration takes the marker above it away from the type. -/
theorem comment_inside_declaration_detaches_marker :
    let block : Span := ⟨⟨4, 1⟩, ⟨4, 27⟩⟩
    let day : TypeSpec := ⟨"Day", ⟨⟨4, 6⟩, ⟨4, 27⟩⟩⟩
    let m : Comment := ⟨markerText, ⟨⟨3, 1⟩, ⟨3, 18⟩⟩⟩
    let f := oneBlock [m, ⟨"/* weekday */", ⟨⟨4, 10⟩, ⟨4, 23⟩⟩⟩] block [day]
    (Program.ofFile f).FirstIntroduced ⟨"p", "Day"⟩ f block [day] day ∧
      InSourceOrder f.comments ∧ m ∈ f.comments ∧ m.isMarker = true ∧
      m.span.stop.line + 1 = block.start.line ∧ m.trails f.ends = false ∧
      (Program.ofFile f).isMarkedType ⟨"p", "Day"⟩ = false := by
  intro block day m f
  exact ⟨firstIntroduced_oneBlock _ _ _ _, by decide, by decide, by decide, rfl, by decide,
    by decide⟩

end Headers

end EnumCover
