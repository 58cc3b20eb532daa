import EnumCover.Proofs.Comments.Headers
import EnumCover.Proofs.Comments.Partition

namespace EnumCover

/-- Comments sorted by where they start, each of them on one line. -/
structure OneLiners (cs : List Comment) : Prop where
  sorted : cs.Pairwise fun c d => c.span.start.AtOrBefore d.span.start
  one_line : ∀ c ∈ cs, c.span.stop.line = c.span.start.line

def Decl.nodes : Decl → List Span
  | .types span specs => span :: specs.map (·.span)
  | .consts span specs => span :: specs.map (·.span)
  | .func _ span _ | .var span _ | .other span => [span]

def SourceFile.nodes (f : SourceFile) : List Span := f.decls.flatMap Decl.nodes

theorem Decl.ends_eq (d : Decl) : d.ends = d.nodes.map Span.stop := by
  cases d <;> simp [ends, nodes]

theorem SourceFile.ends_eq (f : SourceFile) : f.ends = f.nodes.map Span.stop := by
  simp only [ends, nodes, List.map_flatMap, ← Decl.ends_eq]

theorem CommentGroup.last_mem (g : CommentGroup) : g.last ∈ g.comments :=
  List.mem_of_getLast? g.getLast?_comments

namespace OneLiners

variable {ends : List Position} {cs : List Comment} {g : CommentGroup} {c : Comment}

theorem one_line_of_mem (h : OneLiners cs) (hg : g ∈ splitComments ends cs)
    (hc : c ∈ g.comments) : c.span.stop.line = c.span.start.line :=
  h.one_line c ((mem_iff_mem_splitComments ends cs c).mpr ⟨g, hg, hc⟩)

theorem first_atOrBefore (h : OneLiners cs) (hg : g ∈ splitComments ends cs)
    (hc : c ∈ g.comments) : g.first.span.start.AtOrBefore c.span.start := by
  have hsorted := pairwise_of_mem_splitComments h.sorted hg
  rcases List.mem_cons.mp hc with rfl | hc
  · exact .inr ⟨rfl, Nat.le_refl _⟩
  · exact List.rel_of_pairwise_cons hsorted hc

theorem line_eq_of_trailing (h : OneLiners cs) (hg : g ∈ splitComments ends cs)
    (htrailing : g.trailing = true) (hc : c ∈ g.comments) :
    c.span.start.line = g.first.span.start.line := by
  have hlinked := (formed_of_mem_splitComments hg).linked
  rw [htrailing] at hlinked
  have hlines := hlinked.imp fun c d hcd => (CommentGroup.continues_trailing_iff c d).mp hcd
  apply (on_one_line_iff hlines).mpr _ c hc
  intro d hd
  exact h.one_line_of_mem hg (List.dropLast_subset _ hd)

theorem after_of_trailing (h : OneLiners cs) (hg : g ∈ splitComments ends cs)
    (htrailing : g.trailing = true) (hc : c ∈ g.comments) {e : Position}
    (hline : e.line = g.first.span.start.line) (hcolumn : e.column < g.first.span.start.column) :
    e.line = c.span.start.line ∧ e.column < c.span.start.column := by
  have hsame := h.line_eq_of_trailing hg htrailing hc
  have hbefore := h.first_atOrBefore hg hc
  unfold Position.AtOrBefore at hbefore
  omega

/-- The kind of a group is what each of its comments says. -/
theorem trailing_iff (h : OneLiners cs) (hg : g ∈ splitComments ends cs) (hc : c ∈ g.comments) :
    g.trailing = true ↔ c.Trails ends := by
  obtain ⟨hfirst, hleading, -⟩ := CommentGroup.formed_iff.mp (formed_of_mem_splitComments hg)
  constructor
  · intro htrailing
    obtain ⟨e, he, hline, hcolumn⟩ := hfirst.mp htrailing
    exact ⟨e, he, h.after_of_trailing hg htrailing hc hline hcolumn⟩
  · intro htrails
    rw [← Bool.not_eq_false]
    intro hl
    exact hleading hl c hc htrails

theorem pairwise_lines (h : OneLiners cs) (ends : List Position) :
    (splitComments ends cs).Pairwise fun g g' =>
      g.trailing = true → g.last.span.stop.line < g'.first.span.start.line := by
  have hsorted := h.sorted
  rw [← flatMap_splitComments ends cs, List.pairwise_flatMap] at hsorted
  have hone : ∀ g ∈ splitComments ends cs, g.last.span.stop.line = g.last.span.start.line :=
    fun g hg => h.one_line_of_mem hg g.last_mem
  have hapart := isChain_splitComments ends cs
  have hordered := hsorted.2
  generalize splitComments ends cs = gs at hone hapart hordered ⊢
  induction gs with
  | nil => exact .nil
  | cons g gs ih =>
    rw [List.pairwise_cons] at hordered
    rw [List.forall_mem_cons] at hone
    refine .cons ?_ (ih hone.2 hapart.tail hordered.2)
    intro g' hg' htrailing
    cases gs with
    | nil => cases hg'
    | cons b gs =>
      -- the group right after `g` does not go on with its line, and `g'` is no earlier than that
      have hnext : b.first.span.start.line ≠ g.last.span.stop.line := by
        have hb := (List.isChain_cons_cons.mp hapart).1
        rwa [htrailing, CommentGroup.continues_trailing_iff] at hb
      have hgb : g.last.span.start.AtOrBefore b.first.span.start :=
        hordered.1 b List.mem_cons_self _ g.last_mem _ List.mem_cons_self
      have hbg' : b.first.span.start.AtOrBefore g'.first.span.start := by
        rcases List.mem_cons.mp hg' with rfl | hg'
        · exact .inr ⟨rfl, Nat.le_refl _⟩
        · exact List.rel_of_pairwise_cons hordered.2 hg' _ List.mem_cons_self _ List.mem_cons_self
      unfold Position.AtOrBefore at hgb hbg'
      omega

theorem not_trails_before (h : OneLiners cs) {before after : List CommentGroup}
    (hsplit : splitComments ends cs = before ++ g :: after)
    (hc : c ∈ before.flatMap CommentGroup.comments) :
    ¬(c.Trails ends ∧ c.span.start.line = g.first.span.start.line) := by
  rintro ⟨htrails, hline⟩
  obtain ⟨a, ha, hca⟩ := List.mem_flatMap.mp hc
  have hmem : a ∈ splitComments ends cs := by
    rw [hsplit]
    exact List.mem_append_left _ ha
  have htrailing := (h.trailing_iff hmem hca).mpr htrails
  have hbelow : a.last.span.stop.line < g.first.span.start.line := by
    have hlines := h.pairwise_lines ends
    rw [hsplit, List.pairwise_append] at hlines
    exact hlines.2.2 a ha g List.mem_cons_self htrailing
  have hfirst := h.line_eq_of_trailing hmem htrailing hca
  have hlast := h.line_eq_of_trailing hmem htrailing a.last_mem
  have hstop := h.one_line_of_mem hmem a.last_mem
  omega

theorem line_lt_after (h : OneLiners cs) {before after : List CommentGroup}
    (hsplit : splitComments ends cs = before ++ g :: after) (htrailing : g.trailing = true)
    (hc : c ∈ after.flatMap CommentGroup.comments) :
    g.first.span.start.line < c.span.start.line := by
  obtain ⟨b, hb, hcb⟩ := List.mem_flatMap.mp hc
  have hmem : ∀ a ∈ g :: after, a ∈ splitComments ends cs := by
    rw [hsplit]
    exact fun a ha => List.mem_append_right _ ha
  have hbelow : g.last.span.stop.line < b.first.span.start.line := by
    have hlines := h.pairwise_lines ends
    rw [hsplit, List.pairwise_append, List.pairwise_cons] at hlines
    exact hlines.2.1.1 b hb htrailing
  have hg := hmem g List.mem_cons_self
  have hlast := h.line_eq_of_trailing hg htrailing g.last_mem
  have hstop := h.one_line_of_mem hg g.last_mem
  have hfirst := h.first_atOrBefore (hmem b (List.mem_cons_of_mem g hb)) hcb
  unfold Position.AtOrBefore at hfirst
  omega

/-- A trailing group takes in all trailing comments of its line. -/
theorem filter_eq_of_trailing (h : OneLiners cs) (hg : g ∈ splitComments ends cs)
    (htrailing : g.trailing = true) :
    cs.filter (fun c => c.Trails ends ∧ c.span.start.line = g.first.span.start.line) =
      g.comments := by
  obtain ⟨before, after, hsplit⟩ := List.append_of_mem hg
  have hcs : cs = before.flatMap CommentGroup.comments ++
      (g.comments ++ after.flatMap CommentGroup.comments) := by
    rw [← List.flatMap_cons, ← List.flatMap_append, ← hsplit, flatMap_splitComments]
  have hbefore : (before.flatMap CommentGroup.comments).filter (fun c =>
      c.Trails ends ∧ c.span.start.line = g.first.span.start.line) = [] := by
    rw [List.filter_eq_nil_iff]
    intro c hc
    rw [decide_eq_true_eq]
    exact h.not_trails_before hsplit hc
  have hown : g.comments.filter (fun c =>
      c.Trails ends ∧ c.span.start.line = g.first.span.start.line) = g.comments := by
    rw [List.filter_eq_self]
    intro c hc
    rw [decide_eq_true_eq]
    exact ⟨(h.trailing_iff hg hc).mp htrailing, h.line_eq_of_trailing hg htrailing hc⟩
  have hafter : (after.flatMap CommentGroup.comments).filter (fun c =>
      c.Trails ends ∧ c.span.start.line = g.first.span.start.line) = [] := by
    rw [List.filter_eq_nil_iff]
    intro c hc
    rw [decide_eq_true_eq]
    have hline := h.line_lt_after hsplit htrailing hc
    omega
  conv_lhs => rw [hcs]
  rw [List.filter_append, List.filter_append, hbefore, hown, hafter, List.nil_append,
    List.append_nil]

end OneLiners

/-- Sorted comments of one line each are trailing or not each for itself: a comment is in a trailing
group exactly if it trails a node, and the group then holds all trailing comments of its line.
In a file such a group belongs to some node, and only to nodes that end on its line, in front of
each of its comments. -/
theorem trailing_decided_by_each_comment (ends : List Position) (cs : List Comment)
    (h : OneLiners cs) :
    (∀ c ∈ cs, (∃ g ∈ splitComments ends cs, c ∈ g.comments ∧ g.trailing = true) ↔
      c.Trails ends) ∧
    (∀ g ∈ splitComments ends cs, ∀ c ∈ g.comments, c ∈ cs ∧
      (g.trailing = true ↔ c.Trails ends)) ∧
    (∀ g ∈ splitComments ends cs, g.trailing = true →
      cs.filter (fun c => c.Trails ends ∧ c.span.start.line = g.first.span.start.line) =
        g.comments) ∧
    ∀ f : SourceFile, f.comments = cs → ∀ g ∈ f.commentGroups, g.trailing = true →
      (∃ node ∈ f.nodes, g.belongsTo node = true) ∧
      ∀ node, g.belongsTo node = true → ∀ c ∈ g.comments,
        node.stop.line = c.span.start.line ∧ node.stop.column < c.span.start.column := by
  refine ⟨fun c hc => ?_, fun g hg c hc => ?_, fun g hg => h.filter_eq_of_trailing hg, ?_⟩
  · constructor
    · rintro ⟨g, hg, hcg, htrailing⟩
      exact (h.trailing_iff hg hcg).mp htrailing
    · intro htrails
      obtain ⟨g, hg, hcg⟩ := (mem_iff_mem_splitComments ends cs c).mp hc
      exact ⟨g, hg, hcg, (h.trailing_iff hg hcg).mpr htrails⟩
  · exact ⟨(mem_iff_mem_splitComments ends cs c).mpr ⟨g, hg, hc⟩, h.trailing_iff hg hc⟩
  rintro f rfl g hg htrailing
  constructor
  · obtain ⟨e, he, hline, hcolumn⟩ := (h.trailing_iff hg List.mem_cons_self).mp htrailing
    rw [f.ends_eq] at he
    obtain ⟨node, hnode, rfl⟩ := List.mem_map.mp he
    exact ⟨node, hnode, (CommentGroup.belongsTo_iff_of_trailing htrailing node).mpr
      ⟨hline.symm, hcolumn⟩⟩
  · intro node hnode c hc
    obtain ⟨hline, hcolumn⟩ := (CommentGroup.belongsTo_iff_of_trailing htrailing node).mp hnode
    exact h.after_of_trailing hg htrailing hc hline.symm hcolumn

/-- Two comments after `Day`, the second of them the marker, and `Time` on the next line. -/
theorem trailing_decided_by_each_comment_marker :
    let doc : Comment := ⟨"/* of the week */", ⟨⟨4, 14⟩, ⟨4, 31⟩⟩⟩
    let marker : Comment := ⟨markerText, ⟨⟨4, 32⟩, ⟨4, 49⟩⟩⟩
    let time : Span := ⟨⟨5, 1⟩, ⟨5, 14⟩⟩
    let f : SourceFile := ⟨"a.go", [doc, marker], [
      .types ⟨⟨4, 1⟩, ⟨4, 13⟩⟩ [⟨"Day", ⟨⟨4, 6⟩, ⟨4, 13⟩⟩⟩],
      .types time [⟨"Time", ⟨⟨5, 6⟩, ⟨5, 14⟩⟩⟩]]⟩
    let g : CommentGroup := ⟨doc, [marker], true⟩
    OneLiners f.comments ∧ g ∈ f.commentGroups ∧ marker.Trails f.ends ∧
      (∃ node ∈ f.nodes, g.belongsTo node = true) ∧ ¬g.belongsTo time = true := by
  intro doc marker time f g
  have h : OneLiners f.comments := ⟨by decide, by decide⟩
  have hg : g ∈ f.commentGroups := by decide
  have hmarker : marker ∈ g.comments := by decide
  obtain ⟨hkind, -, -, hfile⟩ := trailing_decided_by_each_comment f.ends f.comments h
  obtain ⟨hnode, honly⟩ := hfile f rfl g hg rfl
  refine ⟨h, hg, (hkind marker (by decide)).mp ⟨g, hg, hmarker, rfl⟩, hnode, ?_⟩
  intro htime
  exact absurd (honly time htime marker hmarker).1 (by decide)

end EnumCover
