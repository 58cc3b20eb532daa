import EnumCover.Proofs.Comments.Introductions
import EnumCover.Proofs.Coverage.Cases
import EnumCover.Proofs.Snapshot.Preservation
import EnumCover.Proofs.Snapshot.Leaves
import EnumCover.Proofs.Traversal.Order

namespace EnumCover

/-- A constant where it is declared: the numbers of its file, of its block in the file and of its
spec in the block, the name of the file and the spec. -/
structure DeclaredConst where
  fileIndex : Nat
  blockIndex : Nat
  specIndex : Nat
  file : String
  spec : ConstSpec

namespace DeclaredConst

/-- In an earlier file, or in an earlier block of the same file, or earlier in the same block. -/
def Before (c d : DeclaredConst) : Prop :=
  c.fileIndex < d.fileIndex ∨ c.fileIndex = d.fileIndex ∧
    (c.blockIndex < d.blockIndex ∨ c.blockIndex = d.blockIndex ∧ c.specIndex < d.specIndex)

/-- The spec with the name of its file. -/
def inFile (c : DeclaredConst) : String × ConstSpec := (c.file, c.spec)

end DeclaredConst

/-- The first package with the path declares the constant. -/
def Program.Declares (p : Program) (path : String) (c : DeclaredConst) : Prop :=
  ∃ package f block specs, FirstWith (·.path = path) package p.packages ∧
    package.files[c.fileIndex]? = some f ∧ f.name = c.file ∧
    f.decls[c.blockIndex]? = some (.consts block specs) ∧ specs[c.specIndex]? = some c.spec

def Decl.constSpecs : Decl → List ConstSpec
  | .consts _ specs => specs
  | .types _ _ | .func _ _ _ | .var _ _ | .other _ => []

theorem Decl.constsOf_eq (t : NamedType) (d : Decl) :
    d.constsOf t = d.constSpecs.filter (·.type == .named t) := by
  cases d <;> rfl

theorem flatMap_zipIdx {α β : Type} (l : List α) (g : α → List β) :
    (l.zipIdx.flatMap fun a => g a.1) = l.flatMap g := by
  rw [← List.flatMap_map, List.zipIdx_map_fst]

section Listing

def Decl.declaredConsts (file : String) (i j : Nat) (d : Decl) : List DeclaredConst :=
  d.constSpecs.zipIdx.map fun s => ⟨i, j, s.2, file, s.1⟩

def SourceFile.declaredConsts (i : Nat) (f : SourceFile) : List DeclaredConst :=
  f.decls.zipIdx.flatMap fun d => d.1.declaredConsts f.name i d.2

def Package.declaredConsts (k : Package) : List DeclaredConst :=
  k.files.zipIdx.flatMap fun f => f.1.declaredConsts f.2

theorem Decl.mem_declaredConsts_iff {file : String} {i j : Nat} {d : Decl} {c : DeclaredConst} :
    c ∈ d.declaredConsts file i j ↔ c.fileIndex = i ∧ c.blockIndex = j ∧ c.file = file ∧
      d.constSpecs[c.specIndex]? = some c.spec := by
  rw [declaredConsts, List.mem_map]
  constructor
  · rintro ⟨s, hs, rfl⟩
    exact ⟨rfl, rfl, rfl, List.mk_mem_zipIdx_iff_getElem?.mp hs⟩
  · rintro ⟨rfl, rfl, rfl, hs⟩
    exact ⟨(c.spec, c.specIndex), List.mk_mem_zipIdx_iff_getElem?.mpr hs, rfl⟩

theorem SourceFile.mem_declaredConsts_iff {i : Nat} {f : SourceFile} {c : DeclaredConst} :
    c ∈ f.declaredConsts i ↔ c.fileIndex = i ∧ c.file = f.name ∧
      ∃ d, f.decls[c.blockIndex]? = some d ∧ d.constSpecs[c.specIndex]? = some c.spec := by
  simp only [declaredConsts, List.mem_flatMap, Decl.mem_declaredConsts_iff, Prod.exists,
    List.mk_mem_zipIdx_iff_getElem?]
  constructor
  · rintro ⟨d, j, hd, rfl, rfl, hfile, hs⟩
    exact ⟨rfl, hfile, d, hd, hs⟩
  · rintro ⟨rfl, hfile, d, hd, hs⟩
    exact ⟨d, c.blockIndex, hd, rfl, rfl, hfile, hs⟩

theorem Package.mem_declaredConsts_iff {k : Package} {c : DeclaredConst} :
    c ∈ k.declaredConsts ↔ ∃ f, k.files[c.fileIndex]? = some f ∧ c.file = f.name ∧
      ∃ d, f.decls[c.blockIndex]? = some d ∧ d.constSpecs[c.specIndex]? = some c.spec := by
  simp only [declaredConsts, List.mem_flatMap, SourceFile.mem_declaredConsts_iff, Prod.exists,
    List.mk_mem_zipIdx_iff_getElem?]
  constructor
  · rintro ⟨f, i, hf, rfl, h⟩
    exact ⟨f, hf, h⟩
  · rintro ⟨f, hf, h⟩
    exact ⟨f, c.fileIndex, hf, rfl, h⟩

theorem Decl.pairwise_declaredConsts (file : String) (i j : Nat) (d : Decl) :
    (d.declaredConsts file i j).Pairwise DeclaredConst.Before := by
  rw [declaredConsts, List.pairwise_map]
  exact (pairwise_zipIdx d.constSpecs 0).imp fun h => .inr ⟨rfl, .inr ⟨rfl, h⟩⟩

theorem SourceFile.pairwise_declaredConsts (i : Nat) (f : SourceFile) :
    (f.declaredConsts i).Pairwise DeclaredConst.Before := by
  rw [declaredConsts, List.pairwise_flatMap]
  refine ⟨fun d _ => d.1.pairwise_declaredConsts f.name i d.2, ?_⟩
  refine (pairwise_zipIdx f.decls 0).imp fun hlt c hc c' hc' => ?_
  obtain ⟨hi, hj, -⟩ := Decl.mem_declaredConsts_iff.mp hc
  obtain ⟨hi', hj', -⟩ := Decl.mem_declaredConsts_iff.mp hc'
  exact .inr ⟨hi.trans hi'.symm, .inl (by rwa [hj, hj'])⟩

theorem Package.pairwise_declaredConsts (k : Package) :
    k.declaredConsts.Pairwise DeclaredConst.Before := by
  rw [declaredConsts, List.pairwise_flatMap]
  refine ⟨fun f _ => f.1.pairwise_declaredConsts f.2, ?_⟩
  refine (pairwise_zipIdx k.files 0).imp fun hlt c hc c' hc' => ?_
  obtain ⟨hi, -⟩ := SourceFile.mem_declaredConsts_iff.mp hc
  obtain ⟨hi', -⟩ := SourceFile.mem_declaredConsts_iff.mp hc'
  exact .inl (by rwa [hi, hi'])

theorem Decl.map_declaredConsts (file : String) (i j : Nat) (d : Decl) :
    (d.declaredConsts file i j).map DeclaredConst.inFile = d.constSpecs.map (file, ·) := by
  have hspecs := congrArg (List.map (file, ·)) (List.zipIdx_map_fst 0 d.constSpecs)
  rw [List.map_map] at hspecs
  rw [declaredConsts, List.map_map]
  exact hspecs

theorem SourceFile.map_declaredConsts (i : Nat) (f : SourceFile) :
    (f.declaredConsts i).map DeclaredConst.inFile =
      (f.decls.flatMap Decl.constSpecs).map (f.name, ·) := by
  rw [declaredConsts, List.map_flatMap, List.map_flatMap]
  simp only [Decl.map_declaredConsts]
  exact flatMap_zipIdx f.decls fun d => d.constSpecs.map (f.name, ·)

theorem Package.map_declaredConsts (k : Package) (t : NamedType) :
    (k.declaredConsts.filter (·.spec.type == .named t)).map DeclaredConst.inFile =
      k.constsOf t := by
  have hall : k.declaredConsts.map DeclaredConst.inFile =
      k.files.flatMap fun f => (f.decls.flatMap Decl.constSpecs).map (f.name, ·) := by
    rw [declaredConsts, List.map_flatMap]
    simp only [SourceFile.map_declaredConsts]
    exact flatMap_zipIdx k.files fun f => (f.decls.flatMap Decl.constSpecs).map (f.name, ·)
  have hfile (f : SourceFile) : ((f.decls.flatMap Decl.constSpecs).map (f.name, ·)).filter
      (·.2.type == .named t) = (f.decls.flatMap (Decl.constsOf t)).map (f.name, ·) := by
    rw [List.filter_map, List.filter_flatMap, funext (Decl.constsOf_eq t)]
    rfl
  calc (k.declaredConsts.filter (·.spec.type == .named t)).map DeclaredConst.inFile
      = (k.declaredConsts.map DeclaredConst.inFile).filter (·.2.type == .named t) := by
        rw [List.filter_map]
        rfl
    _ = k.constsOf t := by rw [hall, List.filter_flatMap, Package.constsOf]; simp only [hfile]

end Listing

namespace Program

variable {p : Program} {t : NamedType}

theorem package?_eq_some_iff_firstWith (path : String) (k : Package) :
    p.package? path = some k ↔ FirstWith (·.path = path) k p.packages :=
  find?_eq_some_iff_firstWith Package.path path p.packages k

theorem declares_iff {path : String} {c : DeclaredConst} :
    p.Declares path c ↔ ∃ k, p.package? path = some k ∧ c ∈ k.declaredConsts := by
  simp only [Declares, package?_eq_some_iff_firstWith, Package.mem_declaredConsts_iff]
  constructor
  · rintro ⟨k, f, block, specs, hk, hf, hfile, hd, hs⟩
    exact ⟨k, hk, f, hf, hfile.symm, .consts block specs, hd, hs⟩
  · rintro ⟨k, hk, f, hf, hfile, d, hd, hs⟩
    cases d with
    | consts block specs => exact ⟨k, f, block, specs, hk, hf, hfile.symm, hd, hs⟩
    | types | func | var | other => simp [Decl.constSpecs] at hs

/-- The declarations of the constants of a type, in order. -/
def declarations (p : Program) (t : NamedType) : List DeclaredConst :=
  match p.package? t.package with
  | none => []
  | some k => k.declaredConsts.filter (·.spec.type == .named t)

theorem mem_declarations_iff {c : DeclaredConst} :
    c ∈ p.declarations t ↔ p.Declares t.package c ∧ c.spec.type = .named t := by
  rw [declares_iff, declarations]
  cases p.package? t.package with
  | none => simp
  | some k => simp

theorem pairwise_declarations (p : Program) (t : NamedType) :
    (p.declarations t).Pairwise DeclaredConst.Before := by
  rw [declarations]
  split
  · exact .nil
  · next k _ => exact k.pairwise_declaredConsts.filter _

theorem constants_eq_mapIdx (p : Program) (t : NamedType) :
    p.constants t = (p.declarations t).mapIdx fun i c =>
      ⟨c.spec.name, t, c.spec.value, i, c.file, c.spec.span.start⟩ := by
  rw [constants, declarations]
  cases p.package? t.package with
  | none => rfl
  | some k =>
    dsimp only
    rw [← k.map_declaredConsts, List.mapIdx_eq_zipIdx_map, List.zipIdx_map, List.map_map]
    rfl

theorem pairwise_order (p : Program) (t : NamedType) :
    (p.constants t).Pairwise (·.order < ·.order) := by
  rw [constants_eq_mapIdx, List.mapIdx_eq_zipIdx_map, List.pairwise_map]
  exact pairwise_zipIdx _ 0

/-- The type of a constant that was read is known by its text. -/
theorem Declares.ofString_text {text path : String} {c : DeclaredConst}
    (hread : ofSnapshot text = .value p) (h : p.Declares path c) :
    TypeRef.ofString c.spec.type.text = c.spec.type := by
  obtain ⟨k, f, block, specs, hk, hf, -, hd, hs⟩ := h
  obtain ⟨s, rfl⟩ := exists_spelling hread
  have hp : Content.program.read Node.maxNesting false s.value.node = .value p :=
    ofSnapshot_text_eq_value_iff.mp hread
  have hspec : Content.constSpec.Holds c.spec (.type c.spec.type) :=
    .part (p := ⟨"type", .type, c.spec.type, false⟩) (by simp [Content.parts]) (.leaf rfl)
  have hdecl : Content.decl.Holds (.consts block specs) (.type c.spec.type) :=
    .part (p := ⟨"specs", .list .constSpec, specs, false⟩)
      (by simp [Content.parts, Content.declParts]) (.item (List.mem_of_getElem? hs) hspec)
  have hfile : Content.file.Holds f (.type c.spec.type) :=
    .part (p := ⟨"decls", .list .decl, f.decls, true⟩) (by simp [Content.parts])
      (.item (List.mem_of_getElem? hd) hdecl)
  have hpackage : Content.package.Holds k (.type c.spec.type) :=
    .part (p := ⟨"files", .list .file, k.files, true⟩) (by simp [Content.parts])
      (.item (List.mem_of_getElem? hf) hfile)
  have hprogram : Content.program.Holds p (.type c.spec.type) :=
    .part (p := ⟨"packages", .list .package, p.packages, false⟩) (by simp [Content.parts])
      (.item hk.mem hpackage)
  exact hprogram.readable hp

theorem coverage_missing {cs : List Clause} {ms : List Constant}
    (h : p.coverage t cs = .missing ms) :
    ms.Sublist (p.constants t) ∧ ∀ c ∈ p.constants t, ∀ d ∈ p.constants t,
      c.value = d.value → (c ∈ ms ↔ d ∈ ms) := by
  obtain ⟨-, -, rfl⟩ := (coverage_eq_missing_iff p t cs ms).mp h
  refine ⟨List.filter_sublist, fun c hc d hd hvalue => ?_⟩
  rw [unmatched, List.mem_filter, List.mem_filter, hvalue]
  exact and_congr_left fun _ => iff_of_true hc hd

end Program

theorem Lookup.outcome_eq_missing {r : Lookup} {tag : Option TypeRef} {cs : List Clause}
    {ms : List Constant} (h : (r.outcome tag cs).1 = .missing ms) :
    ∃ t, tag = some (.named t) ∧ r.program.coverage t cs = .missing ms := by
  rw [outcome] at h
  split at h
  · cases h
  · next t ht =>
    obtain ⟨type, rfl, htype⟩ := Option.bind_eq_some_iff.mp ht
    have hprogram := r.ask_program t
    rcases hask : r.ask t with ⟨exhaustive, r'⟩
    rw [hask] at h hprogram
    cases exhaustive with
    | false => cases h
    | true =>
      cases type with
      | named u =>
        cases htype
        exact ⟨t, rfl, hprogram ▸ h⟩
      | basic | composite => cases htype

/-- The constants of a declared type, in a program that was read, are the constants of the first
package with its path whose types have the text of the type: one for each spec, in the order of
files, blocks and specs, and numbered in this order. What a switch misses is a part of the constants
of the type of its tag, still in order, in which constants of one value are all there or all left
out. -/
theorem constants_exact {text s : String} {p : Program} {t : NamedType}
    (hread : Program.ofSnapshot text = .value p) (ht : TypeRef.ofString s = .named t) :
    (∃ declared : List DeclaredConst,
      (∀ c, c ∈ declared ↔ p.Declares t.package c ∧ c.spec.type.text = t.text) ∧
      declared.Pairwise DeclaredConst.Before ∧
      p.constants t = declared.mapIdx fun i c =>
        ⟨c.spec.name, t, c.spec.value, i, c.file, c.spec.span.start⟩) ∧
    ∀ (r : Lookup) (tag : Option TypeRef) (clauses : List Clause) (missing : List Constant),
      r.program = p → (r.outcome tag clauses).1 = .missing missing →
      ∃ u, tag = some (.named u) ∧ missing.Sublist (p.constants u) ∧
        missing.Pairwise (·.order < ·.order) ∧
        ∀ c ∈ p.constants u, ∀ d ∈ p.constants u, c.value = d.value →
          (c ∈ missing ↔ d ∈ missing) := by
  refine ⟨⟨p.declarations t, fun c => ?_, p.pairwise_declarations t, p.constants_eq_mapIdx t⟩, ?_⟩
  · rw [Program.mem_declarations_iff]
    refine and_congr_right fun hc => ?_
    have htext : t.text = s := by rw [← TypeRef.text_ofString s, ht, TypeRef.text]
    constructor
    · intro htype
      rw [htype, TypeRef.text]
    · intro htype
      rw [← hc.ofString_text hread, htype, htext, ht]
  · rintro r tag clauses missing rfl hmissing
    obtain ⟨u, htag, hcoverage⟩ := Lookup.outcome_eq_missing hmissing
    obtain ⟨hsublist, hvalues⟩ := Program.coverage_missing hcoverage
    exact ⟨u, htag, hsublist, (r.program.pairwise_order u).sublist hsublist, hvalues⟩

def constJson (name type : String) (line : Nat) (value : Int) : Json :=
  .obj [("name", .str name), ("span", .arr [.arr [.int line, .int 2], .arr [.int line, .int 9]]),
    ("type", .str type), ("value", .int value)]

/-- Two files with constants of one type, two of them with the same value, and one of another. -/
def daysSnapshot : Json :=
  let span : Json := .arr [.arr [.int 2, .int 1], .arr [.int 9, .int 1]]
  .obj [("packages", .arr [.obj [("path", .str "p"), ("files", .arr [
    .obj [("name", .str "b.go"), ("decls", .arr [.obj [("kind", .str "const"), ("span", span),
      ("specs", .arr [constJson "Sunday" "p.Day" 3 0, constJson "Limit" "untyped int" 4 0,
        constJson "FirstDay" "p.Day" 5 0])]])],
    .obj [("name", .str "a.go"), ("comments", .arr [.obj [("text", .str markerText),
        ("span", .arr [.arr [.int 1, .int 1], .arr [.int 1, .int 18]])]]),
      ("decls", .arr [.obj [("kind", .str "type"), ("span", span),
          ("specs", .arr [.obj [("name", .str "Day"), ("span", span)]])],
        .obj [("kind", .str "const"), ("span", span),
          ("specs", .arr [constJson "Monday" "p.Day" 3 1])]])]])]])]

def daysProgram : Program :=
  let span : Span := ⟨⟨2, 1⟩, ⟨9, 1⟩⟩
  let day : TypeRef := .named ⟨"p", "Day"⟩
  ⟨[⟨"p", true, [], [
    ⟨"b.go", [], [.consts span [⟨"Sunday", ⟨⟨3, 2⟩, ⟨3, 9⟩⟩, day, .int 0⟩,
      ⟨"Limit", ⟨⟨4, 2⟩, ⟨4, 9⟩⟩, .basic "untyped int", .int 0⟩,
      ⟨"FirstDay", ⟨⟨5, 2⟩, ⟨5, 9⟩⟩, day, .int 0⟩]]⟩,
    ⟨"a.go", [⟨markerText, ⟨⟨1, 1⟩, ⟨1, 18⟩⟩⟩], [.types span [⟨"Day", span⟩],
      .consts span [⟨"Monday", ⟨⟨3, 2⟩, ⟨3, 9⟩⟩, day, .int 1⟩]]⟩]⟩]⟩

/-- A switch that only has a case for Monday misses both names of the first day. -/
theorem constants_exact_days :
    Program.ofSnapshot daysSnapshot.compact = .value daysProgram ∧
    TypeRef.ofString "p.Day" = .named ⟨"p", "Day"⟩ ∧
    (∃ declared : List DeclaredConst, declared.length = 3 ∧
      (∀ c, c ∈ declared ↔ daysProgram.Declares "p" c ∧ c.spec.type.text = "p.Day") ∧
      declared.Pairwise DeclaredConst.Before ∧
      daysProgram.constants ⟨"p", "Day"⟩ = declared.mapIdx fun i c =>
        ⟨c.spec.name, ⟨"p", "Day"⟩, c.spec.value, i, c.file, c.spec.span.start⟩) ∧
    ∃ missing, ((Lookup.plain daysProgram).outcome (some (.named ⟨"p", "Day"⟩))
        [.mk ⟨⟨4, 1⟩, ⟨4, 9⟩⟩ [.ident "Monday" none (some (.int 1))] []]).1 = .missing missing ∧
      missing.map (·.name) = ["Sunday", "FirstDay"] ∧
      missing.Sublist (daysProgram.constants ⟨"p", "Day"⟩) ∧
      missing.Pairwise (·.order < ·.order) := by
  have hread : Program.ofSnapshot daysSnapshot.compact = .value daysProgram := by
    refine (Program.ofSnapshot_compact_iff ?_).mpr ?_
    · simp [daysSnapshot, constJson, Json.IsPlain, Json.ArePlain, Json.MembersArePlain, Json.IsWord,
        twoPow]
    · rfl
  have ht : TypeRef.ofString "p.Day" = .named ⟨"p", "Day"⟩ := by decide
  obtain ⟨⟨declared, hmem, hbefore, hconstants⟩, hmissing⟩ := constants_exact hread ht
  have hlength : (daysProgram.constants ⟨"p", "Day"⟩).length = 3 := by decide
  rw [hconstants, List.length_mapIdx] at hlength
  refine ⟨hread, ht, ⟨declared, hlength, hmem, hbefore, hconstants⟩, ?_⟩
  obtain ⟨u, hu, hsublist, horder, -⟩ := hmissing (.plain daysProgram)
    (some (.named ⟨"p", "Day"⟩)) [.mk ⟨⟨4, 1⟩, ⟨4, 9⟩⟩ [.ident "Monday" none (some (.int 1))] []]
    _ rfl rfl
  cases hu
  exact ⟨_, rfl, by decide, hsublist, horder⟩

end EnumCover
