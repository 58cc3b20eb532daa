import Mathlib.Data.Finset.Card
import Mathlib.Data.Set.Card
import EnumCover.Proofs.Comments.Headers

namespace EnumCover

/-- The names of the types that a block is the first to introduce in the package and that are
marked. -/
def Program.markedMembers (p : Program) (path : String) (f : SourceFile) (block : Span)
    (specs : List TypeSpec) : Set String :=
  {name | (∃ spec, p.FirstIntroduced ⟨path, name⟩ f block specs spec) ∧
    p.isMarkedType ⟨path, name⟩ = true}

/-- A group marks at most one of the types that start on different lines and end on different
lines. -/
theorem CommentGroup.marks_unique {g : CommentGroup} {block : Span} {specs : List TypeSpec}
    (hstarts : (specs.map (·.span.start.line)).Nodup)
    (hstops : (specs.map (·.span.stop.line)).Nodup) {s t : TypeSpec} (hs : s ∈ specs)
    (ht : t ∈ specs) (hgs : g.marks block s.span (specs.length == 1) = true)
    (hgt : g.marks block t.span (specs.length == 1) = true) : s = t := by
  cases halone : specs.length == 1 with
  | true =>
    obtain ⟨spec, rfl⟩ := List.length_eq_one_iff.mp (beq_iff_eq.mp halone)
    rw [List.mem_singleton] at hs ht
    rw [hs, ht]
  | false =>
    simp only [marks, halone, Bool.false_eq_true, if_false, Bool.and_eq_true] at hgs hgt
    obtain ⟨-, hs', -⟩ := hgs
    obtain ⟨-, ht', -⟩ := hgt
    cases htrailing : g.trailing with
    | true =>
      rw [belongsTo_iff_of_trailing htrailing] at hs' ht'
      exact List.inj_on_of_nodup_map hstops hs ht (hs'.1.symm.trans ht'.1)
    | false =>
      rw [belongsTo_iff_of_leading htrailing] at hs' ht'
      exact List.inj_on_of_nodup_map hstarts hs ht (hs'.symm.trans ht')

namespace SourceFile

def ownedComments (f : SourceFile) : List (Comment × CommentGroup) :=
  f.commentGroups.flatMap fun g => g.comments.map (·, g)

theorem map_fst_ownedComments (f : SourceFile) : f.ownedComments.map Prod.fst = f.comments := by
  have hown (g : CommentGroup) : (g.comments.map (·, g)).map Prod.fst = g.comments := by
    rw [List.map_map]
    exact List.map_id _
  simp only [ownedComments, List.map_flatMap, hown]
  exact flatMap_splitComments f.ends f.comments

theorem mem_ownedComments {f : SourceFile} {g : CommentGroup} (hg : g ∈ f.commentGroups)
    {c : Comment} (hc : c ∈ g.comments) : (c, g) ∈ f.ownedComments :=
  List.mem_flatMap.mpr ⟨g, hg, List.mem_map_of_mem hc⟩

end SourceFile

section Assignment

variable {p : Program} {path : String} {f : SourceFile} {block : Span} {specs : List TypeSpec}
  {name : String} {i : Nat}

/-- The comment at a place in the file is a marker in a group that marks the type of that name. -/
def MarksAt (f : SourceFile) (block : Span) (specs : List TypeSpec) (i : Nat) (name : String) :
    Prop :=
  ∃ m g spec, f.ownedComments[i]? = some (m, g) ∧ m.isMarker = true ∧ spec ∈ specs ∧
    spec.name = name ∧ g.marks block spec.span (specs.length == 1) = true

theorem exists_marksAt (hname : name ∈ p.markedMembers path f block specs) :
    ∃ i, MarksAt f block specs i name := by
  obtain ⟨⟨spec, hintro⟩, hmarked⟩ := hname
  rw [hintro.isMarkedType_eq, List.any_eq_true] at hmarked
  obtain ⟨g, hg, hmarks⟩ := hmarked
  obtain ⟨m, hm, hmarker⟩ := g.isMarked_iff.mp (Bool.and_eq_true_iff.mp hmarks).1
  obtain ⟨i, hi⟩ := List.getElem?_of_mem (SourceFile.mem_ownedComments hg hm)
  exact ⟨i, m, g, spec, hi, hmarker, hintro.spec.mem, hintro.spec.1, hmarks⟩

theorem MarksAt.marker (h : MarksAt f block specs i name) :
    ∃ m, f.comments[i]? = some m ∧ m.isMarker = true := by
  obtain ⟨m, g, spec, hi, hmarker, -⟩ := h
  refine ⟨m, ?_, hmarker⟩
  rw [← f.map_fst_ownedComments, List.getElem?_map, hi, Option.map_some]

theorem MarksAt.name_eq (hstarts : (specs.map (·.span.start.line)).Nodup)
    (hstops : (specs.map (·.span.stop.line)).Nodup) {name' : String}
    (h : MarksAt f block specs i name) (h' : MarksAt f block specs i name') : name = name' := by
  obtain ⟨m, g, spec, hi, -, hspec, rfl, hmarks⟩ := h
  obtain ⟨m', g', spec', hi', -, hspec', rfl, hmarks'⟩ := h'
  obtain ⟨rfl, rfl⟩ := Prod.mk.injEq .. ▸ Option.some.inj (hi.symm.trans hi')
  rw [CommentGroup.marks_unique hstarts hstops hspec hspec' hmarks hmarks']

theorem encard_le_countP {α β : Type} {s : Set α} {l : List β} {q : β → Bool} {assign : α → Nat}
    (hinj : Set.InjOn assign s)
    (hassign : ∀ a ∈ s, ∃ b, l[assign a]? = some b ∧ q b = true) : s.encard ≤ l.countP q := by
  have hmaps : Set.MapsTo assign s (l.findIdxs q).toFinset := by
    intro a ha
    obtain ⟨b, hb, hq⟩ := hassign a ha
    obtain ⟨hlt, rfl⟩ := List.getElem?_eq_some_iff.mp hb
    rw [List.coe_toFinset, Set.mem_ofPred_eq, List.mem_findIdxs_iff_exists_getElem_pos]
    exact ⟨hlt, hq⟩
  calc s.encard
    _ ≤ ((l.findIdxs q).toFinset : Set Nat).encard := Set.encard_le_encard_of_injOn hmaps hinj
    _ = ((l.findIdxs q).toFinset.card : ℕ∞) := Set.encard_coe_eq_coe_finsetCard _
    _ = l.countP q := by
      rw [List.toFinset_card_of_nodup List.nodup_findIdxs, List.length_findIdxs]

/-- Each marked type of a block has a marker of its own among the comments of the file, so there are
no more marked types than markers. The types of the block have to start on different lines and end
on different lines. -/
theorem marked_members_have_own_markers (p : Program) (path : String) (f : SourceFile)
    (block : Span) (specs : List TypeSpec) (hstarts : (specs.map (·.span.start.line)).Nodup)
    (hstops : (specs.map (·.span.stop.line)).Nodup) :
    (∃ assign : String → Nat, Set.InjOn assign (p.markedMembers path f block specs) ∧
      ∀ name ∈ p.markedMembers path f block specs,
        ∃ m, f.comments[assign name]? = some m ∧ m.isMarker = true) ∧
    (p.markedMembers path f block specs).encard ≤ f.comments.countP Comment.isMarker := by
  have hexists : ∀ name ∈ p.markedMembers path f block specs, ∃ i, MarksAt f block specs i name :=
    fun name hname => exists_marksAt hname
  choose! assign hassign using hexists
  have hinj : Set.InjOn assign (p.markedMembers path f block specs) := by
    intro a ha b hb hab
    exact (hassign a ha).name_eq hstarts hstops (hab ▸ hassign b hb)
  have hmarkers : ∀ name ∈ p.markedMembers path f block specs,
      ∃ m, f.comments[assign name]? = some m ∧ m.isMarker = true :=
    fun name hname => (hassign name hname).marker
  exact ⟨⟨assign, hinj, hmarkers⟩, encard_le_countP hinj hmarkers⟩

/-- Two types in a block, one with a marker above it and one with a marker after it. -/
theorem marked_members_have_own_markers_both :
    let day : TypeSpec := ⟨"Day", ⟨⟨6, 2⟩, ⟨6, 9⟩⟩⟩
    let time : TypeSpec := ⟨"Time", ⟨⟨7, 2⟩, ⟨7, 10⟩⟩⟩
    let f := oneBlock [⟨markerText, ⟨⟨5, 2⟩, ⟨5, 19⟩⟩⟩, ⟨markerText, ⟨⟨7, 11⟩, ⟨7, 28⟩⟩⟩]
      ⟨⟨4, 1⟩, ⟨8, 2⟩⟩ [day, time]
    let members := (Program.ofFile f).markedMembers "p" f ⟨⟨4, 1⟩, ⟨8, 2⟩⟩ [day, time]
    "Day" ∈ members ∧ "Time" ∈ members ∧ members.encard ≤ 2 := by
  intro day time f members
  have hblock : FirstWith (Decl.Introduces "Time") (.types ⟨⟨4, 1⟩, ⟨8, 2⟩⟩ [day, time]) f.decls :=
    ⟨⟨time, by decide, rfl⟩, [], [], rfl, by simp⟩
  have htime : (Program.ofFile f).FirstIntroduced ⟨"p", "Time"⟩ f ⟨⟨4, 1⟩, ⟨8, 2⟩⟩ [day, time]
      time :=
    ⟨⟨_, rfl, ⟨_, hblock.mem, hblock.1⟩, [], [], rfl, by simp⟩, hblock, rfl, [day], [], rfl,
      by decide⟩
  refine ⟨⟨⟨day, firstIntroduced_oneBlock _ _ _ _⟩, by decide⟩, ⟨⟨time, htime⟩, by decide⟩, ?_⟩
  exact (marked_members_have_own_markers (.ofFile f) "p" f ⟨⟨4, 1⟩, ⟨8, 2⟩⟩ [day, time] (by decide)
    (by decide)).2

end Assignment

end EnumCover
