import EnumCover.Comments.Marker

namespace EnumCover

/-- An element of a list has a property that no element before it has. -/
def FirstWith {α : Type} (P : α → Prop) (a : α) (l : List α) : Prop :=
  P a ∧ ∃ before after, l = before ++ a :: after ∧ ∀ b ∈ before, ¬P b

theorem FirstWith.mem {α : Type} {P : α → Prop} {a : α} {l : List α} (h : FirstWith P a l) :
    a ∈ l := by
  obtain ⟨-, before, after, rfl, -⟩ := h
  exact List.mem_append_right _ List.mem_cons_self

theorem find?_eq_some_iff_firstWith {α : Type} (key : α → String) (name : String) (l : List α)
    (a : α) : l.find? (key · == name) = some a ↔ FirstWith (key · = name) a l := by
  simp only [List.find?_eq_some_iff_append, FirstWith, beq_iff_eq, Bool.not_eq_true',
    beq_eq_false_iff_ne, ne_eq]

/-- The declaration is a block of types, and one of them has the name. -/
def Decl.Introduces (name : String) : Decl → Prop
  | .types _ specs => ∃ spec ∈ specs, spec.name = name
  | .consts _ _ | .func _ _ _ | .var _ _ | .other _ => False

def SourceFile.Introduces (name : String) (f : SourceFile) : Prop :=
  ∃ d ∈ f.decls, d.Introduces name

/-- A type is first introduced in its package by a spec in a block of a file. -/
structure Program.FirstIntroduced (p : Program) (t : NamedType) (f : SourceFile) (block : Span)
    (specs : List TypeSpec) (spec : TypeSpec) : Prop where
  file : ∃ package, p.package? t.package = some package ∧
    FirstWith (SourceFile.Introduces t.name) f package.files
  block : FirstWith (Decl.Introduces t.name) (.types block specs) f.decls
  spec : FirstWith (·.name = t.name) spec specs

section Search

variable {name : String}

theorem find?_spec_eq_none_iff (specs : List TypeSpec) :
    specs.find? (·.name == name) = none ↔ ¬∃ spec ∈ specs, spec.name = name := by
  simp only [List.find?_eq_none, beq_iff_eq, not_exists, not_and]

theorem introduction?_cons_of_not {d : Decl} (h : ¬d.Introduces name) (ds : List Decl) :
    introduction? name (d :: ds) = introduction? name ds := by
  cases d with
  | types block specs =>
    rw [introduction?, (find?_spec_eq_none_iff specs).mpr h]
  | consts block specs => rfl
  | func fname span body => rfl
  | var span values => rfl
  | other span => rfl

theorem introduction?_append_of_not {before : List Decl}
    (h : ∀ d ∈ before, ¬d.Introduces name) (ds : List Decl) :
    introduction? name (before ++ ds) = introduction? name ds := by
  induction before with
  | nil => rfl
  | cons d before ih =>
    rw [List.forall_mem_cons] at h
    rw [List.cons_append, introduction?_cons_of_not h.1, ih h.2]

theorem introduction?_of_firstWith {decls : List Decl} {block : Span} {specs : List TypeSpec}
    {spec : TypeSpec} (hblock : FirstWith (Decl.Introduces name) (.types block specs) decls)
    (hspec : FirstWith (·.name = name) spec specs) :
    introduction? name decls = some (block, specs, spec) := by
  obtain ⟨-, before, after, rfl, hbefore⟩ := hblock
  rw [introduction?_append_of_not hbefore, introduction?,
    (find?_eq_some_iff_firstWith TypeSpec.name name specs spec).mpr hspec]

theorem SourceFile.marks?_of_not {f : SourceFile} (h : ¬f.Introduces name) :
    f.marks? name = none := by
  have hnone : introduction? name f.decls = none := by
    rw [← List.append_nil f.decls]
    apply introduction?_append_of_not
    intro d hd hintro
    exact h ⟨d, hd, hintro⟩
  rw [SourceFile.marks?, hnone, Option.map_none]

end Search

variable {p : Program} {t : NamedType} {f : SourceFile} {block : Span} {specs : List TypeSpec}
  {spec : TypeSpec}

theorem Program.FirstIntroduced.isMarkedType_eq (h : p.FirstIntroduced t f block specs spec) :
    p.isMarkedType t =
      f.commentGroups.any (CommentGroup.marks block spec.span (specs.length == 1)) := by
  obtain ⟨package, hpackage, -, before, after, hfiles, hbefore⟩ := h.file
  have hfound : package.files.findSome? (·.marks? t.name) =
      some (f.commentGroups.any (CommentGroup.marks block spec.span (specs.length == 1))) := by
    rw [List.findSome?_eq_some_iff]
    refine ⟨before, f, after, hfiles, ?_, fun f' hf' => SourceFile.marks?_of_not (hbefore f' hf')⟩
    rw [SourceFile.marks?, introduction?_of_firstWith h.block h.spec, Option.map_some]
  simp only [Program.isMarkedType, hpackage, hfound, Option.getD_some]

end EnumCover
