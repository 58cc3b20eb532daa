import EnumCover.Check.Report
import EnumCover.Proofs.Json.Decoding

namespace EnumCover

namespace Violation

/-- What a report shows of a violation: its file as seen from a directory, its position and the
names of the constants. -/
abbrev Shown := String × Position × List String

def shown (base : String) (v : Violation) : Shown :=
  (Path.relativeTo base v.file, v.position, v.missing.map (·.name))

namespace Shown

def toJson (e : Shown) : Json :=
  .obj [("column", .int e.2.1.column), ("file", .str e.1), ("line", .int e.2.1.line),
    ("missing", .arr (e.2.2.map .str))]

/-- Line and column have 32 bits. -/
def IsPlaced (e : Shown) : Prop := e.2.1.line < twoPow 32 ∧ e.2.1.column < twoPow 32

theorem toJson_injective : Function.Injective toJson := by
  rintro ⟨file, ⟨line, column⟩, names⟩ ⟨file', ⟨line', column'⟩, names'⟩ h
  have hnames : names.map Json.str = names'.map Json.str → names = names' :=
    fun h => List.map_injective_iff.mpr (fun _ _ => Json.str.inj) h
  simp only [toJson, Json.obj.injEq, List.cons.injEq, Prod.mk.injEq, Json.int.injEq, Json.str.injEq,
    Json.arr.injEq, true_and, and_true, Int.natCast_inj] at h
  obtain ⟨rfl, rfl, rfl, h⟩ := h
  rw [hnames h]

theorem toJson_isPlain {e : Shown} (h : e.IsPlaced) : e.toJson.IsPlain := by
  have hword : ∀ n : Nat, n < twoPow 32 → Json.IsWord n := by
    intro n hn
    have hbits : twoPow 32 < twoPow 64 := by decide
    have hpos := twoPow_pos 63
    constructor <;> omega
  have hnames : Json.ArePlain (e.2.2.map .str) := by
    simp [Json.arePlain_iff, Json.IsPlain]
  exact ⟨hword _ h.2, trivial, hword _ h.1, hnames, trivial⟩

theorem toJson_inOrder (e : Shown) : e.toJson.InOrder := by
  have hkeys : ["column", "file", "line", "missing"].Pairwise (· < ·) := by decide
  refine .obj ((List.pairwise_map (f := Prod.fst)).mp hkeys) ?_
  simp only [List.forall_mem_cons]
  refine ⟨.int _, .str _, .int _, .arr ?_, by simp⟩
  exact List.forall_mem_map.mpr fun name _ => .str name

theorem nesting_toJson (e : Shown) : e.toJson.nesting ≤ 2 := by
  have hnames : Json.itemsNesting (e.2.2.map .str) ≤ 0 := by
    rw [Json.itemsNesting_le_iff, List.forall_mem_map]
    exact fun name _ => Nat.le_refl 0
  simp only [toJson, Json.nesting, Json.membersNesting]
  omega

end Shown

end Violation

namespace Report

open Violation (Shown)

/-- The document of what is shown. -/
def document (es : List Shown) : Json := .obj [("violations", .arr (es.map Shown.toJson))]

theorem json_eq (base : String) (r : Report) :
    r.json base = (document (r.violations.map (·.shown base))).pretty ++ "\n" := by
  rw [json, document, List.map_map]
  rfl

theorem document_injective : Function.Injective document := by
  intro es es' h
  simp only [document, Json.obj.injEq, List.cons.injEq, Prod.mk.injEq, Json.arr.injEq, true_and,
    and_true] at h
  exact List.map_injective_iff.mpr Shown.toJson_injective h

theorem document_isPlain {es : List Shown} (h : ∀ e ∈ es, e.IsPlaced) : (document es).IsPlain := by
  refine ⟨Json.arePlain_iff.mpr ?_, trivial⟩
  exact List.forall_mem_map.mpr fun e he => Shown.toJson_isPlain (h e he)

theorem document_inOrder (es : List Shown) : (document es).InOrder := by
  refine .obj (List.pairwise_singleton _ _) ?_
  rw [List.forall_mem_singleton]
  exact .arr (List.forall_mem_map.mpr fun e _ => e.toJson_inOrder)

theorem nesting_document (es : List Shown) : (document es).nesting ≤ Node.maxNesting := by
  have hitems : Json.itemsNesting (es.map Shown.toJson) ≤ 2 :=
    Json.itemsNesting_le_iff.mpr (List.forall_mem_map.mpr fun e _ => e.nesting_toJson)
  simp only [document, Json.nesting, Json.membersNesting, Node.maxNesting]
  omega

theorem readText_json {base : String} {r : Report}
    (h : ∀ e ∈ r.violations.map (·.shown base), e.IsPlaced) :
    readText Node.toJson (r.json base) =
      .value (document (r.violations.map (·.shown base))) := by
  rw [json_eq]
  exact Json.readText_pretty (document_isPlain h) (document_inOrder _) (nesting_document _)

end Report

/-- A report is one JSON document and a line break. The document is an object that holds nothing
but the list of violations, each of them with its file as seen from the directory, its line and its
column and the names of the missing constants. Two reports are the same text exactly if they show
the same. -/
theorem report_decodes_to_findings (base : String) (r : Report)
    (h : ∀ v ∈ r.violations, v.position.line < twoPow 32 ∧ v.position.column < twoPow 32) :
    (∃ (j : Json) (s : Json.Spelling),
      j = .obj [("violations", .arr (r.violations.map fun v => .obj [
        ("column", .int v.position.column), ("file", .str (Path.relativeTo base v.file)),
        ("line", .int v.position.line), ("missing", .arr (v.missing.map fun c => .str c.name))]))] ∧
      r.json base = String.ofList s.chars ++ "\n" ∧ s.node = j.node ∧
      readText Node.toJson (r.json base) = .value j) ∧
    ∀ (base' : String) (r' : Report),
      (∀ v ∈ r'.violations, v.position.line < twoPow 32 ∧ v.position.column < twoPow 32) →
      (r.json base = r'.json base' ↔
        r.violations.map (fun v =>
          (Path.relativeTo base v.file, v.position, v.missing.map (·.name))) =
        r'.violations.map fun v =>
          (Path.relativeTo base' v.file, v.position, v.missing.map (·.name))) := by
  have hplaced : ∀ e ∈ r.violations.map (·.shown base), e.IsPlaced := List.forall_mem_map.mpr h
  refine ⟨?_, fun base' r' h' => ⟨fun heq => ?_, fun heq => ?_⟩⟩
  · obtain ⟨s, htext, hnode⟩ := Json.exists_pretty_text (Report.document_isPlain hplaced)
    refine ⟨_, s, ?_, by rw [Report.json_eq, htext], hnode, Report.readText_json hplaced⟩
    simp [Report.document, Violation.Shown.toJson, Violation.shown, Function.comp_def]
  · have hread := Report.readText_json hplaced
    rw [heq, Report.readText_json (List.forall_mem_map.mpr h')] at hread
    exact (Report.document_injective (Reading.value.inj hread)).symm
  · rw [Report.json_eq, Report.json_eq]
    exact congrArg (fun es => (Report.document es).pretty ++ "\n") heq

/-- One violation, in a file whose name has quotes, a backslash, a control character and a letter
beyond ASCII. -/
def quotedReport : Report where
  violations := [{
    file := "/w/\"a\"\\\x01é.go"
    position := ⟨3, 14⟩
    missing := [{
      name := "Größe"
      type := ⟨"w", "Day"⟩
      value := .int 2
      order := 1
      file := "/w/day.go"
      position := ⟨7, 2⟩ }] }]
  stats := {}
  filesAnalyzed := 1

theorem quotedReport_decodes :
    readText Node.toJson (quotedReport.json "/w") =
      .value (.obj [("violations", .arr [.obj [("column", .int 14),
        ("file", .str "\"a\"\\\x01é.go"), ("line", .int 3), ("missing", .arr [.str "Größe"])]])]) ∧
    quotedReport.json "/w" ≠ quotedReport.json "/" := by
  have hfile : Path.relativeTo "/w" "/w/\"a\"\\\x01é.go" = "\"a\"\\\x01é.go" := by decide
  have hother : Path.relativeTo "/" "/w/\"a\"\\\x01é.go" = "w/\"a\"\\\x01é.go" := by decide
  obtain ⟨⟨j, s, hj, -, -, hread⟩, hsame⟩ :=
    report_decodes_to_findings "/w" quotedReport (by decide)
  refine ⟨?_, fun heq => ?_⟩
  · rw [hread, hj]
    simp [quotedReport, hfile]
  · have hshown := (hsame "/" quotedReport (by decide)).mp heq
    simp [quotedReport, hfile, hother] at hshown

end EnumCover
