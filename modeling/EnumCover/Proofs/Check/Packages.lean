import EnumCover.Proofs.Check.Agreement
import EnumCover.Proofs.Check.Violations
import EnumCover.Proofs.Snapshot.Loading

namespace EnumCover

namespace Program

variable {p q : Program}

section Order

theorem package?_eq_some_iff (hnodup : (p.packages.map (·.path)).Nodup) {path : String}
    {k : Package} : p.package? path = some k ↔ k ∈ p.packages ∧ k.path = path := by
  constructor
  · intro h
    unfold package? at h
    exact ⟨List.mem_of_find?_eq_some h, by simpa using List.find?_some h⟩
  · rintro ⟨hk, rfl⟩
    exact package?_of_nodup hnodup hk

theorem package?_perm (h : p.packages.Perm q.packages)
    (hnodup : (p.packages.map (·.path)).Nodup) (path : String) :
    p.package? path = q.package? path := by
  have hnodup' : (q.packages.map (·.path)).Nodup := (h.map _).nodup hnodup
  apply Option.ext
  intro k
  rw [package?_eq_some_iff hnodup, package?_eq_some_iff hnodup', h.mem_iff]

theorem checkedFiles_perm (h : p.packages.Perm q.packages) (ignore : List String) :
    (p.checkedFiles ignore).Perm (q.checkedFiles ignore) :=
  ((h.filter _).flatMap_right _).filter _

theorem check_perm (h : p.packages.Perm q.packages) (hnodup : (p.packages.map (·.path)).Nodup)
    (memoize memoize' : Bool) (ignore : List String) :
    (p.check ⟨memoize, ignore⟩).SameUpToOrder (q.check ⟨memoize', ignore⟩) := by
  have hfindings :
      (p.checkedFiles ignore).map p.findings = (p.checkedFiles ignore).map q.findings :=
    map_findings_congr fun f _ s _ t _ => agreeOn_of_package? (package?_perm h hnodup t.package)
  rw [check_eq, check_eq, hfindings]
  exact Report.ofFindings_perm ((checkedFiles_perm h ignore).map _)

end Order

def append (p q : Program) : Program := ⟨p.packages ++ q.packages⟩

/-- No switch of an initial package has a tag whose type belongs to a package of the other
program. -/
def TagsAvoid (p q : Program) : Prop :=
  ∀ package ∈ p.packages, package.initial = true → ∀ f ∈ package.files,
    ∀ s, (Visit.file f).HasSwitch s → ∀ tag t, s.tag = some tag → tag.type? = some (.named t) →
      ∀ k ∈ q.packages, k.path ≠ t.package

theorem tagsAvoid_iff : p.TagsAvoid q ↔ ∀ package ∈ p.packages, package.initial = true →
    ∀ f ∈ package.files, ∀ s ∈ f.switches, ∀ t ∈ s.tagType?.bind TypeRef.asNamed?,
      ∀ k ∈ q.packages, k.path ≠ t.package := by
  have hswitch (f : SourceFile) (s : Switch) : (Visit.file f).HasSwitch s ↔ s ∈ f.switches :=
    (Visit.file f).hasSwitch_iff_mem_switches s
  simp only [TagsAvoid, hswitch, Option.mem_def, tagType?_asNamed?_iff, forall_exists_index,
    and_imp]
  grind

instance : Decidable (p.TagsAvoid q) := decidable_of_iff _ tagsAvoid_iff.symm

section Append

variable {path : String}

theorem package?_eq_none (h : ∀ k ∈ p.packages, k.path ≠ path) : p.package? path = none := by
  rw [package?, List.find?_eq_none]
  intro k hk
  simpa using h k hk

theorem package?_append (path : String) :
    (p.append q).package? path = (p.package? path).or (q.package? path) :=
  List.find?_append

theorem package?_append_left (h : ∀ k ∈ q.packages, k.path ≠ path) :
    (p.append q).package? path = p.package? path := by
  rw [package?_append, package?_eq_none h, Option.or_none]

theorem package?_append_right (h : ∀ k ∈ p.packages, k.path ≠ path) :
    (p.append q).package? path = q.package? path := by
  rw [package?_append, package?_eq_none h, Option.none_or]

theorem checkedFiles_append (ignore : List String) :
    (p.append q).checkedFiles ignore = p.checkedFiles ignore ++ q.checkedFiles ignore := by
  simp only [checkedFiles, packagesToCheck, append, List.filter_append, List.flatMap_append]

theorem TagsAvoid.path_ne (h : p.TagsAvoid q) {ignore : List String} {f : SourceFile}
    (hf : f ∈ p.checkedFiles ignore) {s : Switch} (hs : s ∈ f.switches) {t : NamedType}
    (ht : s.tagType?.bind TypeRef.asNamed? = some t) : ∀ k ∈ q.packages, k.path ≠ t.package := by
  obtain ⟨package, hp, hinitial, hfile, -⟩ := (p.mem_checkedFiles_iff ignore f).mp hf
  exact tagsAvoid_iff.mp h package hp hinitial f hfile s hs t ht

end Append

end Program

/-- Two programs of which neither switches over a type from a package of the other are checked
together as they are apart: first the violations of one, then those of the other, and all counts
added up. Their paths need not even differ. -/
theorem independent_packages_add_up (p q : Program) (o : CheckOptions) (hp : p.TagsAvoid q)
    (hq : q.TagsAvoid p) : (p.append q).check o = (p.check o).append (q.check o) := by
  have hleft : (p.checkedFiles o.ignore).map (p.append q).findings =
      (p.checkedFiles o.ignore).map p.findings :=
    Program.map_findings_congr fun f hf s hs t ht =>
      Program.agreeOn_of_package? (Program.package?_append_left (hp.path_ne hf hs ht))
  have hright : (q.checkedFiles o.ignore).map (p.append q).findings =
      (q.checkedFiles o.ignore).map q.findings :=
    Program.map_findings_congr fun f hf s hs t ht =>
      Program.agreeOn_of_package? (Program.package?_append_right (hq.path_ne hf hs ht))
  rw [Program.check_eq, Program.check_eq, Program.check_eq, Program.checkedFiles_append,
    List.map_append, hleft, hright, Report.ofFindings_append]

/-- A package with a marked type of one constant, and a switch over it that does not match it. -/
def openPackage (path : String) : Package :=
  ⟨path, true, [], [⟨path ++ ".go", [⟨markerText, ⟨⟨1, 1⟩, ⟨1, 18⟩⟩⟩],
    [.types ⟨⟨2, 1⟩, ⟨2, 15⟩⟩ [⟨"Kind", ⟨⟨2, 6⟩, ⟨2, 15⟩⟩⟩],
      .consts ⟨⟨4, 1⟩, ⟨4, 15⟩⟩ [⟨"Only", ⟨⟨4, 7⟩, ⟨4, 15⟩⟩, .named ⟨path, "Kind"⟩, .int 0⟩],
      .func "f" ⟨⟨6, 1⟩, ⟨9, 1⟩⟩ [.switch (.mk ⟨⟨7, 2⟩, ⟨8, 2⟩⟩ none
        (some (.ident "k" (some (.named ⟨path, "Kind"⟩)) none)) [])]]⟩]⟩

theorem independent_packages_add_up_open :
    Program.TagsAvoid ⟨[openPackage "a"]⟩ ⟨[openPackage "b"]⟩ ∧
    Program.TagsAvoid ⟨[openPackage "b"]⟩ ⟨[openPackage "a"]⟩ ∧
    (Program.check ⟨[openPackage "a", openPackage "b"]⟩ {}) =
      (Program.check ⟨[openPackage "a"]⟩ {}).append (Program.check ⟨[openPackage "b"]⟩ {}) ∧
    (Program.check ⟨[openPackage "a", openPackage "b"]⟩ {}).violations.map (·.file) =
      ["a.go", "b.go"] := by
  have hab : Program.TagsAvoid ⟨[openPackage "a"]⟩ ⟨[openPackage "b"]⟩ := by decide
  have hba : Program.TagsAvoid ⟨[openPackage "b"]⟩ ⟨[openPackage "a"]⟩ := by decide
  exact ⟨hab, hba, independent_packages_add_up _ _ {} hab hba, by decide +kernel⟩

end EnumCover
